import Glossator.Proofs.Python.Docstring

/-!
# The last line of a function

The last line of a function is looked for from its definition downwards, in each round at the last
child that holds code. The way ends with a token, and no token of the code of the function ends on
a later line. So comments and empty lines behind the last statement do not count, and code does.

* `Python.exists_descent`: the way down ends with a token of code.
* `Python.endLine_le_codeEndLine`: no token of code ends on a later line.
* `Python.codeEndLine_spec`: the last line of a definition.
-/

set_option autoImplicit false

namespace Glossator.Python

open Text (lineAt)

variable {t : Text} {n c token : Tree}

/-! ### Tokens of code -/

/-- The way down goes from a node to the last of its children that hold code. -/
def Descends (n c : Tree) : Prop := (codeChildren n.children).getLast? = some c

/-- A node that takes up text and is no comment is a token, without any children, if none of its
children holds code. -/
def TokenUnlessParts (n : Tree) : Prop :=
  n.kind ≠ "comment" → n.start.offset < n.stop.offset → codeChildren n.children = [] →
    n.children = []

instance decidableTokenUnlessParts : DecidablePred TokenUnlessParts := fun n =>
  decidable_of_iff (n.kind ≠ "comment" → n.start.offset < n.stop.offset →
    (codeChildren n.children).isEmpty = true → n.children.isEmpty = true)
    (by simp [TokenUnlessParts])

/-- A token of the code of a node: it takes up text, and no comment of the node holds it. -/
structure IsCodeToken (n token : Tree) : Prop where
  isNode : Tree.IsNodeOf token n
  children : token.children = []
  lt : token.start.offset < token.stop.offset
  outside : ∀ c, Tree.IsNodeOf c n → Tree.IsNodeOf token c → c.kind ≠ "comment"

namespace IsCodeToken

/-- A node without children that takes up text and is no comment is its own token of code. -/
theorem self (hchildren : n.children = []) (hlt : n.start.offset < n.stop.offset)
    (hkind : n.kind ≠ "comment") : IsCodeToken n n := by
  refine ⟨.root n, hchildren, hlt, fun c hc _ => ?_⟩
  cases hc with
  | root => exact hkind
  | child hd => exact absurd (hchildren ▸ hd) List.not_mem_nil

/-- A token of the code of a child is one of the node, if that is no comment. -/
theorem of_child (h : IsCodeToken c token) (hplaced : n.Every (Tree.Placed t))
    (hc : c ∈ n.children) (hkind : n.kind ≠ "comment") : IsCodeToken n token := by
  refine ⟨.child hc h.isNode, h.children, h.lt, fun m hm htoken => ?_⟩
  cases hm with
  | root => exact hkind
  | child hd hm =>
    -- a node that holds the token stands in the same child
    rcases eq_or_beside hplaced.here hc hd with rfl | hbeside
    · exact h.outside m hm htoken
    · have hself := hbeside.within (hplaced.child hc) (hplaced.child hd) h.isNode (htoken.trans hm)
      have hlt := h.lt
      unfold Beside at hself
      omega

/-- A token of the code of a node is the node itself or one of the code of a child. -/
theorem eq_or_exists_child (h : IsCodeToken n token) (hplaced : n.Every (Tree.Placed t)) :
    (token = n ∧ n.children = []) ∨ ∃ c ∈ codeChildren n.children, IsCodeToken c token := by
  obtain ⟨hnode, hchildren, hlt, houtside⟩ := h
  cases hnode with
  | root => exact .inl ⟨rfl, hchildren⟩
  | child hc hnode =>
    have hinside := hnode.inside (hplaced.child hc)
    have hcode := mem_codeChildren.2 ⟨hc, houtside _ (.of_mem hc) hnode, by omega⟩
    exact .inr ⟨_, hcode, hnode, hchildren, hlt, fun m hm => houtside m (.child hc hm)⟩

end IsCodeToken

/-! ### The way down -/

/-- From a node that takes up text and is no comment, the way down ends with a token of its code,
and the last line of the code is the one on which that token ends. -/
theorem exists_descent (hplaced : n.Every (Tree.Placed t)) (htokens : n.Every TokenUnlessParts)
    (hkind : n.kind ≠ "comment") (hlt : n.start.offset < n.stop.offset) :
    ∃ token, Relation.ReflTransGen Descends n token ∧ codeChildren token.children = [] ∧
      IsCodeToken n token ∧ codeEndLine n = endLine token := by
  induction hplaced with
  | @mk n here below ih =>
    rw [codeEndLine_eq]
    cases hlast : (codeChildren n.children).getLast? with
    | none =>
      have hnone := List.getLast?_eq_none_iff.1 hlast
      refine ⟨n, .refl, hnone, .self (htokens.here hkind hlt hnone) hlt hkind, ?_⟩
      rw [lineSpan_eq here.start here.stop hlt, endLine_eq here.stop hlt]
    | some c =>
      obtain ⟨hc, hckind, hclt⟩ := mem_codeChildren.1 (List.mem_of_getLast? hlast)
      obtain ⟨token, hdescent, hnone, htoken, hline⟩ := ih c hc (htokens.child hc) hckind hclt
      exact ⟨token, .head hlast hdescent, hnone, htoken.of_child (.mk here below) hc hkind, hline⟩

/-- No token of the code of a node ends behind the last line of the code. -/
theorem endLine_le_codeEndLine (hplaced : n.Every (Tree.Placed t)) (h : IsCodeToken n token) :
    endLine token ≤ codeEndLine n := by
  induction hplaced with
  | @mk n here below ih =>
    rcases h.eq_or_exists_child (.mk here below) with ⟨rfl, hchildren⟩ | ⟨c, hc, htoken⟩
    · have hnone : codeChildren token.children = [] := by
        rw [hchildren]
        rfl
      rw [codeEndLine_eq, hnone, endLine_eq here.stop h.lt]
      simp only [List.getLast?_nil, lineSpan_eq here.start here.stop h.lt, le_rfl]
    · exact (ih c (mem_codeChildren.1 hc).1 htoken).trans
        (codeEndLine_le_of_mem (.mk here below) hc)

/-! ### The last line -/

/-- The line is the last one of the code of a node: the way down ends with a token that ends there,
and no token of code ends on a later line. Text of code that stands behind some line takes the last
line beyond it, and nothing else does. -/
structure IsLastLine (t : Text) (n : Tree) (line : Nat) : Prop where
  descent : ∃ token, Relation.ReflTransGen Descends n token ∧
    codeChildren token.children = [] ∧ IsCodeToken n token ∧ line = endLine token
  greatest : IsGreatest (endLine '' {token | IsCodeToken n token}) line
  le_iff : ∀ bound, line ≤ bound ↔ ∀ token, IsCodeToken n token →
    ∀ i, token.span.contains i = true → lineAt t i ≤ bound

/-- The last line of the code of a node that takes up text and is no comment. -/
theorem isLastLine_codeEndLine (hplaced : n.Every (Tree.Placed t))
    (htokens : n.Every TokenUnlessParts) (hkind : n.kind ≠ "comment")
    (hlt : n.start.offset < n.stop.offset) : IsLastLine t n (codeEndLine n) := by
  have hends (token : Tree) (h : IsCodeToken n token) :
      endLine token = lineAt t (token.stop.offset - 1) :=
    endLine_eq (h.isNode.every hplaced).here.stop h.lt
  obtain ⟨last, hdescent, hnone, hlast, hline⟩ := exists_descent hplaced htokens hkind hlt
  refine ⟨⟨last, hdescent, hnone, hlast, hline⟩, ⟨⟨last, hlast, hline.symm⟩, ?_⟩, fun bound => ?_⟩
  · rintro _ ⟨token, htoken, rfl⟩
    exact endLine_le_codeEndLine hplaced htoken
  constructor
  · intro hle token htoken i hi
    obtain ⟨-, hstop⟩ := Span.contains_iff.1 hi
    calc lineAt t i ≤ lineAt t (token.stop.offset - 1) :=
          Text.lineAt_mono (Nat.le_sub_one_of_lt hstop)
      _ = endLine token := (hends token htoken).symm
      _ ≤ codeEndLine n := endLine_le_codeEndLine hplaced htoken
      _ ≤ bound := hle
  · intro hall
    rw [hline, hends last hlast]
    exact hall last hlast _ (Span.contains_iff.2 ⟨Nat.le_sub_one_of_lt hlast.lt,
      Nat.sub_lt (Nat.zero_lt_of_lt hlast.lt) Nat.one_pos⟩)

/-- The last line of a definition, which its record gives, is the last one of its code. -/
theorem codeEndLine_spec {f : Tree} (hplaced : f.Every (Tree.Placed t))
    (htokens : f.Every TokenUnlessParts) (hkind : f.kind ∈ definitionKinds)
    (hlt : f.start.offset < f.stop.offset) :
    IsLastLine t f (codeEndLine f) ∧ ∀ src scope decorators r,
      record? src scope decorators f = some r → r.endLine = codeEndLine f := by
  refine ⟨isLastLine_codeEndLine hplaced htokens ?_ hlt, fun src scope decorators r hr => ?_⟩
  · rintro hcomment
    rw [hcomment] at hkind
    exact absurd hkind (by decide)
  · obtain ⟨name, -, rfl⟩ := Option.map_eq_some_iff.1 hr
    rfl

/-! ### A function with a comment behind it -/

/-- A text in which a comment follows the last statement of a function. -/
def commentedText : Text := "def f():\n  pass\n  # c\n".toList

/-- A part of that text as a node. -/
def commentedPart (kind : String) (named : Bool) (role : Option String) (start stop : Nat)
    (children : List Tree) : Tree :=
  .node ⟨kind, named, role, commentedText.placeAt start, commentedText.placeAt stop⟩ children

/-- The function, with the comment at the end of its body. -/
def commentedFunction : Tree :=
  let token (kind : String) (start stop : Nat) : Tree :=
    commentedPart kind false none start stop []
  commentedPart "function_definition" true none 0 21
    [token "def" 0 3, commentedPart "identifier" true (some "name") 4 5 [],
      commentedPart "parameters" true (some "parameters") 5 7 [token "(" 5 6, token ")" 6 7],
      token ":" 7 8,
      commentedPart "block" true (some "body") 11 21
        [commentedPart "pass_statement" true none 11 15 [token "pass" 11 15],
          commentedPart "comment" true none 18 21 []]]

theorem every_commentedFunction :
    commentedFunction.Every fun n => Tree.Placed commentedText n ∧ TokenUnlessParts n := by
  simp only [commentedFunction, commentedPart, Tree.Every.node_iff, List.forall_mem_cons,
    List.not_mem_nil, false_implies, implies_true]
  decide +kernel

/-- The comment ends on the third line, the code of the function on the second. -/
theorem codeEndLine_spec_commentedFunction :
    (commentedFunction.Every (Tree.Placed commentedText) ∧
      commentedFunction.Every TokenUnlessParts ∧ commentedFunction.kind ∈ definitionKinds ∧
      commentedFunction.start.offset < commentedFunction.stop.offset) ∧
    (IsLastLine commentedText commentedFunction (codeEndLine commentedFunction) ∧
      ∀ src scope decorators r, record? src scope decorators commentedFunction = some r →
        r.endLine = codeEndLine commentedFunction) ∧
    (record? (.ofText commentedText) none [] commentedFunction).isSome = true ∧
    codeEndLine commentedFunction = 2 ∧ (lineSpan commentedFunction).2 = 3 := by
  have hplaced := every_commentedFunction.mono fun _ h => h.1
  have htokens := every_commentedFunction.mono fun _ h => h.2
  have hkind : commentedFunction.kind ∈ definitionKinds := by decide
  have hlt : commentedFunction.start.offset < commentedFunction.stop.offset := by decide +kernel
  have hname : (commentedFunction.child? "name").isSome = true := by decide +kernel
  have hline : codeEndLine commentedFunction = 2 := by cbv
  have hspan : (lineSpan commentedFunction).2 = 3 := by decide +kernel
  refine ⟨⟨hplaced, htokens, hkind, hlt⟩, codeEndLine_spec hplaced htokens hkind hlt, ?_, hline,
    hspan⟩
  rw [record?, Option.isSome_map, hname]

end Glossator.Python

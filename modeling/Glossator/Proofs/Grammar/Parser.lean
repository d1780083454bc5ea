import Glossator.Proofs.Grammar.Stack

/-!
# Soundness of the parser

Every branch of a parse has a stack of constructs, and each action of the automaton keeps it so.
Hence the tree of a text is put together of constructs.

* `Grammar.advance_found`: what the actions before a token lead to.
* `Grammar.exists_stacked_of_parse?`: the tree of a text is that of a stack of constructs.
-/

set_option autoImplicit false

namespace Glossator.Grammar

variable {σ : Type} {t : Table} {lex : Lexer σ} {Ok : σ → Prop} {IsPlace : Place → Prop}
  {Extra : Piece → Prop} {P : Symbol → Piece → Prop}

/-- The piece of a token. -/
def Lexeme.piece (l : Lexeme σ) : Piece := ⟨l.info, l.visible, []⟩

/-- The lexeme can be read as a token. -/
structure Lexeme.Reads (lex : Lexer σ) (Ok : σ → Prop) (P : Symbol → Piece → Prop) (l : Lexeme σ)
    (token : Nat) : Prop where
  behind : Ok l.behind
  le : l.info.stop.offset ≤ lex.offset l.behind
  piece : P (.token token) l.piece

/-- The lexer finds tokens and what may stand anywhere, one behind the other. -/
structure Lexer.Sound (lex : Lexer σ) (Ok : σ → Prop) (Extra : Piece → Prop)
    (P : Symbol → Piece → Prop) : Prop where
  start : ∀ s valid l, Ok s → lex.next s valid = some l → lex.offset s ≤ l.info.start.offset
  token : ∀ s valid l token, Ok s → lex.next s valid = some l → l.token = some token →
    l.Reads lex Ok P token
  extra : ∀ s valid l, Ok s → lex.next s valid = some l → l.token = none →
    Ok l.behind ∧ l.info.stop.offset ≤ lex.offset l.behind ∧ Extra l.piece
  otherwise : ∀ l token l' token', lex.otherwise l token = some (l', token') →
    l.Reads lex Ok P token → l'.Reads lex Ok P token' ∧ l'.info.start = l.info.start

/-- The branch has a stack of constructs and has read the text up to behind them. -/
structure Branch.Sound (t : Table) (lex : Lexer σ) (Ok : σ → Prop) (Extra : Piece → Prop)
    (P : Symbol → Piece → Prop) (a : Automaton) (b : Branch σ) : Prop where
  stacked : Stacked t P Extra a b.stack
  lexer : Ok b.lexer
  before : EndsBefore b.stack (lex.offset b.lexer)

theorem Branch.Sound.mono {a a' : Automaton} {b : Branch σ} (h : b.Sound t lex Ok Extra P a)
    (ha : a.Extends a') : b.Sound t lex Ok Extra P a' :=
  ⟨h.stacked.mono ha, h.lexer, h.before⟩

/-- The tree is that of a stack of constructs. -/
def IsWhole (t : Table) (Extra : Piece → Prop) (P : Symbol → Piece → Prop) (tree : Tree) : Prop :=
  ∃ a s, Stacked t P Extra a s ∧ wholeTree t s = some tree

/-- The automaton is sound, and so is all that has been found with it. -/
structure Advance.Sound (t : Table) (lex : Lexer σ) (Ok : σ → Prop) (Extra : Piece → Prop)
    (P : Symbol → Piece → Prop) (found : Advance σ) : Prop where
  automaton : found.automaton.Sound t
  branches : ∀ b ∈ found.branches, b.Sound t lex Ok Extra P found.automaton
  tree : ∀ tree ∈ found.tree, IsWhole t Extra P tree

/-- What is found next to something else, by an automaton with further states. -/
structure Advance.Follows (t : Table) (lex : Lexer σ) (Ok : σ → Prop) (Extra : Piece → Prop)
    (P : Symbol → Piece → Prop) (a : Automaton) (found : Advance σ) : Prop where
  sound : found.Sound t lex Ok Extra P
  extend : a.Extends found.automaton

theorem Advance.Sound.row {found : Advance σ} (h : found.Sound t lex Ok Extra P) {n : Nat}
    {kernel : Kernel} (hn : found.automaton.kernels[n]? = some kernel) :
    ({ found with automaton := (found.automaton.row t n).2 } : Advance σ).Follows t lex Ok Extra P
      found.automaton := by
  obtain ⟨hsound, hext, -⟩ := h.automaton.row hn
  exact ⟨⟨hsound, fun b hb => (h.branches b hb).mono hext, h.tree⟩, hext⟩

theorem Advance.Follows.trans {a : Automaton} {found found' : Advance σ}
    (h : found.Follows t lex Ok Extra P a) (h' : found'.Follows t lex Ok Extra P found.automaton) :
    found'.Follows t lex Ok Extra P a := ⟨h'.sound, h.extend.trans h'.extend⟩

/-- A branch that reads the token. -/
theorem Advance.Sound.shift {found : Advance σ} (h : found.Sound t lex Ok Extra P) {stack : Stack}
    (hstack : Stacked t P Extra found.automaton stack) {l : Lexeme σ} {token state : Nat}
    (hreads : l.Reads lex Ok P token) (hbefore : EndsBefore stack l.info.start.offset)
    (hleads : Automaton.Leads t found.automaton (Stack.state stack) (.token token) state) :
    ({ found with branches := found.branches ++ [⟨⟨state, l.piece, false⟩ :: stack, l.behind⟩] } :
      Advance σ).Follows t lex Ok Extra P found.automaton := by
  refine ⟨⟨h.automaton, ?_, h.tree⟩, .refl _⟩
  intro b hb
  rcases List.mem_append.1 hb with hb | hb
  · exact h.branches b hb
  · rw [List.mem_singleton.1 hb]
    exact ⟨.step hstack rfl hreads.piece hleads hbefore, hreads.behind,
      fun f hf => by cases hf; exact hreads.le⟩

/-- A construct leads on, whether the row of the state knows of its rule or not. -/
theorem leads_after {a : Automaton} (ha : a.Sound t) {n : Nat} {kernel : Kernel}
    (hn : a.kernels[n]? = some kernel) {row : Row} (hrow : Automaton.RowSound t a n row)
    (rule : Nat) : Automaton.Leads t a n (.rule rule) (row.after.getD rule 0) := by
  rw [Std.HashMap.getD_eq_getD_getElem?]
  cases hafter : row.after[rule]? with
  | none => exact ha.leads_zero hn _
  | some n' => exact hrow.after rule n' hafter

/-- Carrying out the actions before a token keeps everything sound. -/
theorem advance_sound (hP : Constructs t IsPlace Extra P) (ht : t.Narrow)
    (hlex : lex.Sound Ok Extra P) (bound : Nat) {l : Lexeme σ} {token : Nat} {found : Advance σ}
    {stack : Stack} (hfound : found.Sound t lex Ok Extra P)
    (hstack : Stacked t P Extra found.automaton stack) (hreads : l.Reads lex Ok P token)
    (hbefore : EndsBefore stack l.info.start.offset) :
    (advance t lex bound l token found stack).Follows t lex Ok Extra P found.automaton := by
  induction bound generalizing l token found stack with
  | zero => exact ⟨hfound, .refl _⟩
  | succ bound ih =>
    obtain ⟨kernel, hkernel⟩ := hstack.exists_kernel hfound.automaton
    have hrow := hfound.row hkernel
    obtain ⟨-, -, hrowSound⟩ := hfound.automaton.row hkernel
    simp only [advance]
    generalize found.automaton.row t stack.state = made at hrow hrowSound
    obtain ⟨row, automaton⟩ := made
    simp only at hrow hrowSound ⊢
    have hstack' := hstack.mono hrow.extend
    cases hactions : row.actions[token]? with
    | none =>
      cases hother : lex.otherwise l token with
      | none => exact hrow
      | some other =>
        obtain ⟨hreads', hstart⟩ := hlex.otherwise l token other.1 other.2 hother hreads
        have hnext := ih hrow.sound hstack' hreads' (hstart ▸ hbefore)
        exact ⟨hnext.sound, hrow.extend.trans hnext.extend⟩
    | some actions =>
      suffices hfold : Advance.Follows t lex Ok Extra P automaton
          (actions.foldl _ { found with automaton := automaton }) from
        ⟨hfold.sound, hrow.extend.trans hfold.extend⟩
      refine List.foldlRecOn actions _
        (motive := fun (found' : Advance σ) => found'.Follows t lex Ok Extra P automaton)
        ⟨hrow.sound, .refl _⟩ ?_
      intro found' hfollows action haction
      have hstack'' := hstack'.mono hfollows.extend
      cases action with
      | shift state =>
        have hleads := hrowSound.shift token actions state hactions haction
        exact hfollows.trans (hfollows.sound.shift hstack'' hreads hbefore
          (hleads.mono hfollows.extend))
      | reduce production =>
        by_cases hwhole : production = t.whole
        · simp only [if_pos hwhole]
          refine ⟨⟨hfollows.sound.automaton, hfollows.sound.branches, ?_⟩, hfollows.extend⟩
          intro tree htree
          rcases Option.or_eq_some_iff.1 htree with htree | ⟨-, htree⟩
          · exact hfollows.sound.tree tree htree
          · exact ⟨automaton, stack, hstack', htree⟩
        · simp only [if_neg hwhole]
          obtain ⟨kernel', hkernel', item, hitem, rfl, hfinished⟩ :=
            hrowSound.reduce token actions production hactions haction
          have hhere : IsPlace l.info.start := (hP.placed _ _ hreads.piece).start
          obtain ⟨below, piece, trailing, heq, hbelow, hrestacked⟩ :=
            hstack''.finish hP ht hfollows.sound.automaton (hfollows.extend _ _ hkernel') hitem
              hfinished hwhole hhere hbefore
          obtain ⟨kernelBelow, hkernelBelow⟩ := hbelow.exists_kernel hfollows.sound.automaton
          have hrowBelow := hfollows.sound.row hkernelBelow
          obtain ⟨-, -, hrowSoundBelow⟩ := hfollows.sound.automaton.row hkernelBelow
          rw [heq]
          simp only
          obtain ⟨hstacked, hends⟩ := hrestacked _ _ hrowBelow.extend
            (leads_after hrowBelow.sound.automaton (hrowBelow.extend _ _ hkernelBelow)
              hrowSoundBelow _)
          have hnext := ih hrowBelow.sound hstacked hreads hends
          exact (hfollows.trans hrowBelow).trans hnext

/-! ### Whole texts -/

theorem mem_insertBranch {b b' : Branch σ} {branches : List (Branch σ)}
    (h : b' ∈ insertBranch lex b branches) : b' = b ∨ b' ∈ branches := by
  induction branches with
  | nil => exact .inl (List.mem_singleton.1 h)
  | cons first rest ih =>
    unfold insertBranch at h
    split at h
    · exact .inr h
    · split at h
      · exact List.mem_cons.1 h
      · rcases List.mem_cons.1 h with rfl | h
        · exact .inr List.mem_cons_self
        · exact (ih h).imp_right (List.mem_cons_of_mem first)

theorem isWhole_of_parseFrom (hP : Constructs t IsPlace Extra P) (ht : t.Narrow)
    (hlex : lex.Sound Ok Extra P) (bound : Nat) {a : Automaton} {branches : List (Branch σ)}
    (ha : a.Sound t) (hbranches : ∀ b ∈ branches, b.Sound t lex Ok Extra P a) {tree : Tree}
    (h : parseFrom t lex bound a branches = some tree) : IsWhole t Extra P tree := by
  induction bound generalizing a branches with
  | zero =>
    unfold parseFrom at h
    cases h
  | succ bound ih =>
    cases branches with
    | nil =>
      unfold parseFrom at h
      cases h
    | cons b rest =>
      have hb := hbranches b List.mem_cons_self
      obtain ⟨kernel, hkernel⟩ := hb.stacked.exists_kernel ha
      obtain ⟨ha', hext, -⟩ := ha.row hkernel
      have hrest : ∀ b' ∈ rest, b'.Sound t lex Ok Extra P (a.row t (Stack.state b.stack)).2 :=
        fun b' hb' => (hbranches b' (List.mem_cons_of_mem b hb')).mono hext
      have hstack := hb.stacked.mono hext
      simp only [parseFrom] at h
      cases hnext : lex.next b.lexer (a.row t (Stack.state b.stack)).1.valid with
      | none =>
        rw [hnext] at h
        exact ih ha' hrest h
      | some l =>
        rw [hnext] at h
        simp only at h
        have hbefore := hb.before.mono (hlex.start _ _ l hb.lexer hnext)
        cases htoken : l.token with
        | none =>
          rw [htoken] at h
          obtain ⟨hbehind, hle, hextra⟩ := hlex.extra _ _ l hb.lexer hnext htoken
          refine ih ha' ?_ h
          intro b' hb'
          rcases mem_insertBranch hb' with rfl | hb'
          · refine ⟨.extra hstack rfl rfl hextra hbefore, hbehind, ?_⟩
            intro f hf
            cases hf
            exact hle
          · exact hrest b' hb'
        | some token =>
          rw [htoken] at h
          have hreads := hlex.token _ _ l token hb.lexer hnext htoken
          have hempty : Advance.Sound t lex Ok Extra P
              ⟨(a.row t (Stack.state b.stack)).2, [], none⟩ :=
            ⟨ha', fun _ hb' => absurd hb' List.not_mem_nil, fun _ htree => by cases htree⟩
          have hfollows :=
            advance_sound hP ht hlex (64 * (b.stack.length + 2)) hempty hstack hreads hbefore
          simp only at h
          generalize advance t lex (64 * (b.stack.length + 2)) l token
            ⟨(a.row t (Stack.state b.stack)).2, [], none⟩ b.stack = found at h hfollows
          cases htree : found.tree with
          | some tree' =>
            rw [htree] at h
            cases h
            exact hfollows.sound.tree tree htree
          | none =>
            rw [htree] at h
            refine ih hfollows.sound.automaton ?_ h
            refine List.foldlRecOn found.branches _ (motive := fun (branches : List (Branch σ)) =>
              ∀ b' ∈ branches, b'.Sound t lex Ok Extra P found.automaton)
              (fun b' hb' => (hrest b' hb').mono hfollows.extend) ?_
            intro branches hbranches' b' hmem b'' hb''
            rcases mem_insertBranch hb'' with rfl | hb''
            · exact hfollows.sound.branches b'' hmem
            · exact hbranches' b'' hb''

/-- The tree of a text is that of a stack of constructs. -/
theorem isWhole_of_parse? (hP : Constructs t IsPlace Extra P) (ht : t.Narrow)
    (hlex : lex.Sound Ok Extra P) {start : σ} (hstart : Ok start) {length : Nat} {tree : Tree}
    (h : parse? t lex start length = some tree) : IsWhole t Extra P tree := by
  refine isWhole_of_parseFrom hP ht hlex _ (Automaton.sound_initial t) ?_ h
  intro b hb
  rw [List.mem_singleton.1 hb]
  exact ⟨.nil, hstart, fun f hf => by cases hf⟩

end Glossator.Grammar

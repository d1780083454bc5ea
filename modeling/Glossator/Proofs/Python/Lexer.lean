import Glossator.Proofs.Python.Grammar
import Glossator.Proofs.Python.Layout
import Glossator.Proofs.Python.Token
import Glossator.Proofs.Text.Span
import Glossator.Python.Lexer

/-!
# What the lexer finds

The lexer moves from spot to spot of a text. What it finds stands there, and only the end of the
text, layout and the content of strings can take up no characters. A token of fixed spelling is
spelled so, a name is read as one, and no token but those inside strings starts like a comment.

* `Python.lexicon`: the tokens of a text, and its comments and joined lines.
* `Python.sound_lexer`: the lexer finds what is in the lexicon.
-/

set_option autoImplicit false

namespace Glossator.Python

open Grammar

variable {t : Text} {l : Lexing} {s stop : Spot}

/-! ### Tokens of the grammar -/

theorem layoutName_mem_tokens (token : LayoutToken) :
    token.name ∈ Productions.tokens grammar.productions := by
  refine mem_tokens (token_mem_elements token.name ?_) rfl
  cases token <;> decide

theorem identifier_mem_tokens : "identifier" ∈ Productions.tokens grammar.productions :=
  mem_tokens (token_mem_elements _ List.mem_cons_self) rfl

theorem tokenName_table {name : String} (h : name ∈ Productions.tokens grammar.productions) :
    grammar.tokenName (table.number name) = name := tokenName_number h

theorem emptyTokens_subset : emptyTokens ⊆ valueTokens := by decide

theorem innerTokens_subset : innerTokens ⊆ valueTokens := by decide

/-- A literal of the grammar is no token of another kind, and opens visibly. -/
theorem literal_spec {name : String}
    (h : Element.literal name ∈ Productions.elements grammar.productions) :
    name ∉ valueTokens ∧ ∃ c ∈ name.toList.head?, Token.isOpening c = true := by
  obtain ⟨x, hx, h⟩ := List.mem_flatMap.1 h
  obtain ⟨steps, hsteps, h⟩ := List.mem_flatMap.1 h
  obtain ⟨step, hstep, helement⟩ := List.mem_map.1 h
  have hregular := (productionOk_iff.1 (productionOk_of_mem x hx steps hsteps)).2.1 step hstep
  simp only [isRegularStep, helement, isKnown, Bool.and_eq_true, Option.any_eq_true,
    Bool.not_eq_true', List.contains_eq_mem, decide_eq_false_iff_not] at hregular
  exact ⟨hregular.1.1.2, hregular.1.1.1⟩

/-! ### Tokens of a text -/

/-- How a token is written. -/
structure IsSpelling (name : String) (written : Text) : Prop where
  literal : name ∉ valueTokens → written = name.toList
  word : name = "identifier" → Token.name? written = some []
  opening : name ∉ innerTokens → ∃ c ∈ written.head?, Token.isOpening c = true

/-- A token of a text. -/
structure IsToken (t : Text) (name : String) (p : Piece) : Prop where
  placed : p.Placed t.IsPlace
  children : p.children = []
  kind : p.info.kind = name
  visible : p.visible = !name.startsWith "_"
  lt : name ∉ emptyTokens → p.info.start.offset < p.info.stop.offset
  named : p.info.named = valueTokens.contains name
  spelling : IsSpelling name (Span.slice ⟨p.info.start.offset, p.info.stop.offset⟩ t)

/-- A comment or the end of a line that goes on. -/
structure IsExtra (t : Text) (p : Piece) : Prop where
  placed : p.Placed t.IsPlace
  children : p.children = []
  kind : p.info.kind ∈ looseKinds
  visible : p.visible = true
  lt : p.info.start.offset < p.info.stop.offset
  named : p.info.named = true
  opening : t[p.info.start.offset]? = some '#' ∨ t[p.info.start.offset]? = some '\\'

/-- The tokens of a text. -/
def lexicon (t : Text) : Lexicon where
  IsPlace := t.IsPlace
  Leaf := IsToken t
  Extra := IsExtra t
  leaf_placed _ _ h := h.placed
  leaf_children _ _ h := h.children
  extra_placed _ h := h.placed
  extra_children _ h := h.children

namespace Lexer

/-- The lexer is at a spot of the text. -/
def IsAt (t : Text) (l : Lexing) : Prop := l.spot.IsOf t

/-- The lexeme can be read as a token of the text. -/
def Reads (t : Text) (x : Lexeme Lexing) (token : Nat) : Prop :=
  x.Reads lexer (IsAt t) (Means grammar (lexicon t)) token

/-- What is found behind a place. -/
structure Finds (t : Text) (l : Lexing) (x : Lexeme Lexing) : Prop where
  start : l.spot.place.offset ≤ x.info.start.offset
  token : ∀ token, x.token = some token → Reads t x token
  extra : x.token = none →
    IsAt t x.behind ∧ x.info.stop.offset ≤ lexer.offset x.behind ∧ IsExtra t x.piece

theorem reads_lexeme (hs : s.IsOf t) (hstop : s.Reaches t stop) {number : Nat} {name : String}
    (hname : grammar.tokenName number = name)
    (hlt : name ∉ emptyTokens → s.place.offset < stop.place.offset)
    (hspelling : IsSpelling name (Span.slice ⟨s.place.offset, stop.place.offset⟩ t)) :
    Reads t (lexeme l (some number) name (valueTokens.contains name) s stop) number := by
  refine ⟨hstop.isOf, le_rfl, ?_⟩
  show IsToken t (grammar.tokenName number) _
  rw [hname]
  exact ⟨⟨hs.place, hstop.isOf.place, hstop.le⟩, rfl, rfl, rfl, hlt, rfl, hspelling⟩

theorem finds_token (hl : l.spot.Reaches t s) (hstop : s.Reaches t stop) {number : Nat}
    {name : String} (hname : grammar.tokenName number = name)
    (hlt : name ∉ emptyTokens → s.place.offset < stop.place.offset)
    (hspelling : IsSpelling name (Span.slice ⟨s.place.offset, stop.place.offset⟩ t)) {named : Bool}
    (hnamed : named = valueTokens.contains name) :
    Finds t l (tokenLexeme l number named s stop) := by
  refine ⟨hl.le, ?_, fun hnone => by cases hnone⟩
  intro token htoken
  cases htoken
  rw [tokenLexeme, show table.tokens[number]?.getD "" = name from
    (getElem?_tokens grammar number).trans hname, hnamed]
  exact reads_lexeme hl.isOf hstop hname hlt hspelling

theorem finds_extra (hl : l.spot.Reaches t s) {rest : Text} (hrest : rest.length < s.rest.length)
    {name : String} (hname : name ∈ looseKinds)
    (hopening : s.here? = some '#' ∨ s.here? = some '\\') :
    Finds t l (lexeme l none name true s (s.upTo rest)) := by
  have hstop := hl.isOf.reaches_upTo rest
  have hall : looseKinds.all (fun name => !name.startsWith "_") = true := by decide +kernel
  have hvisible := List.all_eq_true.1 hall name hname
  refine ⟨hl.le, fun _ htoken => (by cases htoken), fun _ => ⟨hstop.isOf, le_rfl, ?_⟩⟩
  exact ⟨⟨hl.isOf.place, hstop.isOf.place, hstop.le⟩, rfl, hname, hvisible, hl.isOf.lt_upTo hrest,
    rfl, hl.isOf.here?_eq ▸ hopening⟩

/-- What a reader has found is a token of a name. -/
structure ReadsAs (u : Text) (number : Nat) (named : Bool) (rest : Text) (name : String) :
    Prop where
  name_eq : grammar.tokenName number = name
  shortens : rest.length < u.length
  named_eq : named = valueTokens.contains name
  spelling : IsSpelling name (u.take (u.length - rest.length))

theorem finds_upTo (hl : l.spot.Reaches t s) {number : Nat} {named : Bool} {rest : Text}
    {name : String} (h : ReadsAs s.rest number named rest name) :
    Finds t l (tokenLexeme l number named s (s.upTo rest)) :=
  finds_token hl (hl.isOf.reaches_upTo rest) h.name_eq (fun _ => hl.isOf.lt_upTo h.shortens)
    (hl.isOf.slice_upTo rest ▸ h.spelling) h.named_eq

theorem escape_eq : numbers.escape = table.number "escape_sequence" := by simp only [numbers]

theorem backslash_eq : numbers.backslash = table.number "_not_escape_sequence" := by
  simp only [numbers]

theorem formatText_eq : numbers.formatText = table.number "_format_text" := by simp only [numbers]

/-- A token of a name that is no word. -/
theorem isSpelling_of_mem {name : String} (hname : name ∈ valueTokens) (hne : name ≠ "identifier")
    {written : Text}
    (hopening : name ∉ innerTokens → ∃ c ∈ written.head?, Token.isOpening c = true) :
    IsSpelling name written :=
  ⟨fun hnot => absurd hname hnot, fun h => absurd h hne, hopening⟩

theorem readsAs_of_read {u rest : Text} {name : String} {read : Token.Reader}
    (hread : read u = some rest) (hshortens : read.Shortens) (hname : name ∈ namedTokens)
    (hne : name ≠ "identifier") (hopening : name ∉ innerTokens → read.Opens Token.isOpening) :
    ReadsAs u (table.number name) true rest name := by
  have hvalue : name ∈ valueTokens := List.mem_cons_of_mem _ hname
  have hlt := hshortens hread
  refine ⟨tokenName_table (mem_tokens (token_mem_elements name hname) rfl), hlt,
    (List.contains_iff_mem.2 hvalue).symm, isSpelling_of_mem hvalue hne fun hinner => ?_⟩
  rw [List.head?_take, if_neg (by omega)]
  exact hopening hinner hread

/-! ### Words and signs -/

theorem exists_keyword_of_testBit {n : Nat} (h : keywordSet.testBit n = true) :
    ∃ spelling, (n, spelling) ∈ keywords := by
  suffices hfold : ∀ n, keywordSet.testBit n = true → ∃ spelling, (n, spelling) ∈ keywords from
    hfold n h
  unfold keywordSet
  refine List.foldlRecOn keywords _ (motive := fun (set : TokenSet) =>
    ∀ n, set.testBit n = true → ∃ spelling, (n, spelling) ∈ keywords)
    (fun n hn => by simp at hn) ?_
  intro set hset k hk n hn
  rw [Nat.testBit_or, Bool.or_eq_true, Nat.one_shiftLeft, Nat.testBit_two_pow,
    decide_eq_true_eq] at hn
  rcases hn with hn | rfl
  · exact hset n hn
  · exact ⟨k.2, hk⟩

theorem mem_of_best {cs : List (Nat × Bool × Text)} {c : Nat × Bool × Text}
    (h : best cs = some c) : c ∈ cs := by
  cases cs with
  | nil => cases h
  | cons first rest =>
    cases h
    refine List.foldlRecOn rest _ (motive := fun b => b ∈ first :: rest) List.mem_cons_self ?_
    intro b hb c hc
    split
    · exact List.mem_cons_of_mem first hc
    · exact hb

/-- A token of fixed spelling, where it is read. -/
theorem readsAs_of_literal {u rest : Text} {name : String}
    (hname : Element.literal name ∈ Productions.elements grammar.productions)
    (hrest : name.toList ++ rest = u) : ReadsAs u (table.number name) false rest name := by
  obtain ⟨hvalue, hopening⟩ := literal_spec hname
  have hlength : u.length = name.toList.length + rest.length := by
    rw [← hrest, List.length_append]
  have hpos : 0 < name.toList.length := by
    obtain ⟨c, hc, -⟩ := hopening
    exact List.length_pos_of_mem (List.mem_of_head? hc)
  have hwritten : u.take (u.length - rest.length) = name.toList := by
    rw [hlength, Nat.add_sub_cancel, ← hrest, List.take_left]
  refine ⟨tokenName_table (mem_tokens hname rfl), by omega, ?_, ?_⟩
  · rw [List.contains_eq_mem, decide_eq_false hvalue]
  · rw [hwritten]
    refine ⟨fun _ => rfl, ?_, fun _ => hopening⟩
    rintro rfl
    exact absurd (by decide) hvalue

theorem readsAs_of_word? {valid : TokenSet} {u : Text} {c : Nat × Bool × Text}
    (h : word? valid u = some c) : ∃ name, ReadsAs u c.1 c.2.1 c.2.2 name := by
  unfold word? at h
  obtain ⟨-, h⟩ := Option.ite_none_left_eq_some.1 h
  obtain ⟨rest, hrest, hfound⟩ := Option.map_eq_some_iff.1 h
  have hlt := Token.name?_shortens hrest
  dsimp only at hfound
  split at hfound
  case h_1 k hk =>
    obtain rfl := hfound
    have hboth := List.find?_some hk
    obtain ⟨hspelled, -⟩ := Bool.and_eq_true_iff.1 hboth
    have hkeyword := (List.mem_filter.1 (List.mem_of_find?_eq_some hk)).1
    obtain ⟨name, hname, hnumber, hspelling⟩ := exists_literal_of_mem_literals hkeyword
    refine ⟨name, ?_⟩
    rw [← hnumber]
    refine readsAs_of_literal hname ?_
    rw [hspelling, eq_of_beq hspelled]
    exact Token.take_append_of_name? hrest
  case h_2 =>
    obtain rfl := hfound
    have hidentifier : "identifier" ∈ namedTokens := List.mem_cons_self
    have hname : grammar.tokenName nameNumber = "identifier" :=
      tokenName_table identifier_mem_tokens
    dsimp only
    refine ⟨"identifier", hname, hlt, by decide, ?_, ?_, ?_⟩
    · exact fun hnot => absurd (List.mem_cons_of_mem _ hidentifier) hnot
    · exact fun _ => Token.name?_take hrest
    · intro _
      rw [List.head?_take, if_neg (by omega)]
      exact Token.name?_opens hrest

theorem readsAs_of_mem_readers {r : Nat × Token.Reader} (h : r ∈ readers) {u rest : Text}
    (hrest : r.2 u = some rest) : ∃ name, ReadsAs u r.1 true rest name := by
  simp only [readers, List.mem_cons, List.not_mem_nil, or_false] at h
  have hnumber {c : Char} := Token.isOpening_of_opensNumber (c := c)
  rcases h with rfl | rfl | rfl
  all_goals dsimp only at hrest ⊢
  · exact ⟨"integer", readsAs_of_read hrest Token.integer?_shortens (by decide) (by decide)
      fun _ => Token.integer?_opens.mono fun _ => hnumber⟩
  · exact ⟨"float", readsAs_of_read hrest Token.float?_shortens (by decide) (by decide)
      fun _ => Token.float?_opens.mono fun _ => hnumber⟩
  · exact ⟨"type_conversion", readsAs_of_read hrest Token.conversion?_shortens (by decide)
      (by decide) fun _ => Token.conversion?_opens⟩

theorem readsAs_of_mem_candidates {valid : TokenSet} {u : Text} {c : Nat × Bool × Text}
    (h : c ∈ candidates valid u) : ∃ name, ReadsAs u c.1 c.2.1 c.2.2 name := by
  unfold candidates at h
  rcases List.mem_append.1 h with h | h
  rcases List.mem_append.1 h with h | h
  · obtain ⟨⟨number, spelling⟩, hsign, h⟩ := List.mem_filterMap.1 h
    obtain ⟨name, hname, rfl, rfl⟩ := exists_literal_of_mem_literals (List.mem_filter.1 hsign).1
    obtain ⟨-, h⟩ := Option.ite_none_right_eq_some.1 h
    obtain ⟨rest, hrest, rfl⟩ := Option.map_eq_some_iff.1 h
    dsimp only
    exact ⟨name, readsAs_of_literal hname (List.isPrefixOf?_eq_some_iff_append_eq.1 hrest)⟩
  · exact readsAs_of_word? (Option.mem_toList.1 h)
  · obtain ⟨⟨number, read⟩, hread, h⟩ := List.mem_filterMap.1 h
    obtain ⟨-, h⟩ := Option.ite_none_right_eq_some.1 h
    obtain ⟨rest, hrest, rfl⟩ := Option.map_eq_some_iff.1 h
    exact readsAs_of_mem_readers hread hrest

/-! ### All tokens -/

theorem reaches_skipSeparators (formatText : Bool) (bound : Nat) (hs : s.IsOf t) :
    s.Reaches t (skipSeparators formatText bound s) := by
  induction bound generalizing s with
  | zero => exact hs.refl
  | succ bound ih =>
    unfold skipSeparators
    split
    · exact hs.refl
    · split
      · exact hs.refl
      · split
        · exact hs.reaches_next.trans (ih hs.reaches_next.isOf)
        · exact hs.refl

theorem finds_backslash (hl : l.spot.Reaches t s) {valid : TokenSet} {inPlace : Bool}
    (hc : s.here? = some '\\') {x : Lexeme Lexing} (h : backslash l valid inPlace s = some x) :
    Finds t l x := by
  unfold backslash at h
  simp only at h
  split at h
  case h_1 rest hescape =>
    cases h
    split at hescape
    · rw [escape_eq]
      exact finds_upTo hl (readsAs_of_read hescape Token.escape?_shortens (by decide) (by decide)
        fun hinner => absurd (by decide) hinner)
    · cases hescape
  case h_2 =>
    split at h
    case h_1 rest hrest =>
      cases h
      exact finds_extra hl (Token.lineContinuation?_shortens hrest) (by decide) (.inr hc)
    case h_2 =>
      split at h
      · cases h
        rw [backslash_eq]
        exact finds_token hl hl.isOf.reaches_next
          (tokenName_table (mem_tokens (token_mem_elements "_not_escape_sequence" (by decide)) rfl))
          (fun _ => hl.isOf.lt_forward hc 0)
          (isSpelling_of_mem (by decide) (by decide) fun hinner => absurd (by decide) hinner)
          (by decide)
      · cases h

theorem finds_plain (hl : IsAt t l) {valid : TokenSet} {x : Lexeme Lexing}
    (h : plain l valid = some x) : Finds t l x := by
  unfold plain at h
  simp only at h
  have hs := reaches_skipSeparators (valid.testBit numbers.formatText) (l.spot.rest.length + 1) hl
  generalize skipSeparators (valid.testBit numbers.formatText) (l.spot.rest.length + 1) l.spot = s
    at h hs
  cases hc : s.here? with
  | none =>
    simp only [hc] at h
    cases h
    exact finds_token hs hs.isOf.refl (tokenName_table (endOfText_mem_tokens grammar))
      (fun hnot => absurd List.mem_cons_self hnot)
      (isSpelling_of_mem (by decide) (by decide) fun hinner => absurd (by decide) hinner)
      (by decide)
  | some c =>
    simp only [hc] at h
    split at h
    case h_1 rest hformat =>
      cases h
      split at hformat
      · rw [formatText_eq]
        exact finds_upTo hs (readsAs_of_read hformat Token.formatText?_shortens (by decide)
          (by decide) fun hinner => absurd (by decide) hinner)
      · cases hformat
    case h_2 =>
      split at h
      case isTrue hcomment =>
        obtain ⟨rest, hrest, rfl⟩ := Option.map_eq_some_iff.1 h
        exact finds_extra hs (Token.comment?_shortens hrest) (by decide) (.inl (hcomment ▸ hc))
      split at h
      case isTrue hbackslash => exact finds_backslash hs (hbackslash ▸ hc) h
      · obtain ⟨⟨number, named, rest⟩, hbest, rfl⟩ := Option.map_eq_some_iff.1 h
        obtain ⟨name, hread⟩ := readsAs_of_mem_candidates (mem_of_best hbest)
        exact finds_upTo hs hread

theorem takes_text_of_solid {token : LayoutToken} (h : token.name ∉ emptyTokens) :
    token ∈ [.stringStart, .doubledBrace, .stringEnd] ∧
      token ∉ [.newline, .indent, .dedent] := by
  revert h
  cases token <;> decide

theorem layoutName_mem (token : LayoutToken) :
    token.name ∈ valueTokens ∧ token.name ≠ "identifier" := by
  cases token <;> decide

theorem eq_stringStart_of_name {token : LayoutToken} (h : token.name ∉ innerTokens) :
    token = .stringStart := by
  revert h
  cases token <;> decide

/-- How a layout token is written. -/
theorem isSpelling_ofLayout {x : LayoutLexeme} (hx : Layout.Stands t l.spot x) :
    IsSpelling x.token.name
      (Span.slice ⟨(ofLayout x).info.start.offset, (ofLayout x).info.stop.offset⟩ t) := by
  obtain ⟨hvalue, hne⟩ := layoutName_mem x.token
  refine isSpelling_of_mem hvalue hne fun hinner => ?_
  have htoken := eq_stringStart_of_name hinner
  obtain ⟨c, hc, hopening⟩ := hx.opening htoken
  have hlt := hx.lt (htoken ▸ List.mem_cons_self)
  have hstop : (ofLayout x).info.stop = x.behind.spot.place := by
    show (if _ then x.start else x.behind.spot.place) = _
    rw [htoken, if_neg (by decide)]
  refine ⟨c, ?_, hopening⟩
  rw [Option.mem_def, hstop]
  exact (Span.head?_slice hlt t).trans hc

theorem finds_ofLayout {x : LayoutLexeme} (hx : Layout.Stands t l.spot x) :
    Finds t l (ofLayout x) := by
  refine ⟨hx.ge, ?_, fun hnone => by cases hnone⟩
  intro token htoken
  have hnumber : table.number x.token.name = token := Option.some.inj htoken
  subst hnumber
  have hname := tokenName_table (layoutName_mem_tokens x.token)
  refine ⟨hx.behind, ?_, ?_⟩
  · show (if _ then x.start else x.behind.spot.place).offset ≤ x.behind.spot.place.offset
    split
    · exact hx.le
    · exact le_rfl
  · show IsToken t (grammar.tokenName _) _
    rw [hname]
    refine ⟨⟨hx.start, ?_, ?_⟩, rfl, rfl, rfl, ?_, ?_, isSpelling_ofLayout hx⟩
    · show t.IsPlace (if _ then x.start else x.behind.spot.place)
      split
      · exact hx.start
      · exact hx.behind.place
    · show x.start.offset ≤ (if _ then x.start else x.behind.spot.place).offset
      split
      · exact le_rfl
      · exact hx.le
    · intro hsolid
      obtain ⟨htext, hlayout⟩ := takes_text_of_solid hsolid
      show x.start.offset < (if _ then x.start else x.behind.spot.place).offset
      rw [if_neg hlayout]
      exact hx.lt htext
    · exact (List.contains_iff_mem.2 (layoutName_mem x.token).1).symm

theorem finds_next (hl : IsAt t l) {valid : TokenSet} {x : Lexeme Lexing}
    (h : next l valid = some x) : Finds t l x := by
  unfold next at h
  split at h
  case h_1 x' hlayout =>
    cases h
    exact finds_ofLayout (Layout.next_stands hl hlayout)
  case h_2 => exact finds_plain hl h

/-- A keyword that is read as a name is a name. -/
theorem reads_asName {x : Lexeme Lexing} {token : Nat} (htoken : keywordSet.testBit token = true)
    (h : Reads t x token) : Reads t (asName x) nameNumber := by
  obtain ⟨spelling, hkeyword⟩ := exists_keyword_of_testBit htoken
  obtain ⟨name, hname, rfl, rfl⟩ := exists_literal_of_mem_literals (List.mem_filter.1 hkeyword).1
  have htokenName := tokenName_table (mem_tokens hname rfl)
  obtain ⟨hvalue, hopening⟩ := literal_spec hname
  have hpiece : IsToken t name x.piece := htokenName ▸ h.piece
  have hlt := hpiece.lt fun hempty => hvalue (emptyTokens_subset hempty)
  refine ⟨h.behind, h.le, ?_⟩
  show IsToken t (grammar.tokenName nameNumber) _
  rw [nameNumber, tokenName_table identifier_mem_tokens]
  have hvisible : true = !"identifier".startsWith "_" := by decide +kernel
  have hnamed : true = valueTokens.contains "identifier" := by decide
  have hwritten := hpiece.spelling.literal hvalue
  have hword : Token.name? name.toList = some [] := eq_of_beq (List.mem_filter.1 hkeyword).2
  refine ⟨⟨hpiece.placed.start, hpiece.placed.stop, hpiece.placed.le⟩, rfl, rfl, hvisible,
    fun _ => hlt, hnamed, ?_, fun _ => ?_, fun _ => ?_⟩
  · exact fun hnot => absurd (by decide) hnot
  · exact hwritten ▸ hword
  · exact hwritten ▸ hopening

end Lexer

/-- What the lexer finds is in the lexicon of the text. -/
theorem sound_lexer (t : Text) :
    lexer.Sound (Lexer.IsAt t) (lexicon t).Extra (Means grammar (lexicon t)) where
  start _ _ _ hl h := (Lexer.finds_next hl h).start
  token _ _ _ token hl h htoken := (Lexer.finds_next hl h).token token htoken
  extra _ _ _ hl h hnone := (Lexer.finds_next hl h).extra hnone
  otherwise x token x' token' h hreads := by
    simp only [lexer] at h
    split at h
    case isTrue htoken =>
      cases h
      exact ⟨Lexer.reads_asName htoken hreads, rfl⟩
    case isFalse => cases h

theorem isAt_start (t : Text) : Lexer.IsAt t (.start t) := by
  have hstart : Spot.IsOf t ⟨.start, t⟩ := ⟨⟨0, Nat.zero_le _, rfl⟩, rfl⟩
  exact (hstart.reaches_skipIf '\uFEFF').isOf

end Glossator.Python

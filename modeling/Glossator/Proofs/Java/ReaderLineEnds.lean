import Glossator.Proofs.Java.Block
import Glossator.Proofs.Text.LineEnds
import Glossator.Proofs.Text.Trim
import Glossator.Java.Comments
import Glossator.Java.DocComment
import Glossator.Java.Parameters

/-!
# Comments, blocks and brackets in texts with returns

What reads a Java text character by character finds the same in the text with a carriage return
before each newline. A line comment takes up the return as well, and in a literal a backslash
protects the return in place of the newline.

* `Java.inComment_crlf`: the same characters are in comments.
* `Java.block?_crlf`: blocks open and close at the same braces.
* `Java.cleanComment?_crlf`, `Java.splitParameters_crlf`: comments and parameters read the same.
-/

set_option autoImplicit false

namespace Glossator.Java

open Text

variable {t u : Text} {i : Nat}

/-! ### Comments -/

theorem afterBlockComment_crlf (u : Text) :
    afterBlockComment (crlf u) = crlf (afterBlockComment u) := by
  fun_induction afterBlockComment u with
  | case1 => rfl
  | case2 rest => simp [crlf_cons, afterBlockComment]
  | case3 c rest hne ih =>
    by_cases hc : c = '\n'
    · subst hc
      rw [crlf_newline, afterBlockComment, afterBlockComment, ih] <;> simp
    · rw [crlf_cons hc, afterBlockComment, ih]
      intro rest' hstar hslash
      have hhead := head?_crlf rest
      rw [hslash] at hhead
      cases rest with
      | nil => simp at hhead
      | cons d rest =>
        by_cases hd : d = '\n'
        · simp [hd] at hhead
        · simp only [List.head?_cons, Option.map_some, hd, if_false, Option.some.injEq] at hhead
          exact hne rest hstar (by rw [hhead])

/-- No backslash stands right before a newline. -/
def NoSplice (t : Text) : Prop := ¬ ['\\', '\n'] <:+: t

theorem NoSplice.of_suffix (h : NoSplice t) (hu : u <:+ t) : NoSplice u :=
  fun hsplice => h (hsplice.trans hu.isInfix)

/-- A literal ends at its quote and at a newline. -/
theorem afterLiteral_cons {quote c : Char} (hc : c ≠ '\\') (rest : Text) :
    afterLiteral quote (c :: rest) =
      if c = quote || c = '\n' then rest else afterLiteral quote rest := by
  rw [afterLiteral]
  · exact fun h => absurd h hc
  · exact fun _ _ h => absurd h hc

theorem afterLiteral_crlf {quote : Char} (hquote : quote ≠ '\r') (h : NoSplice u) :
    afterLiteral quote (crlf u) = crlf (afterLiteral quote u) := by
  fun_induction afterLiteral quote u with
  | case1 => rfl
  | case2 => simp [crlf_cons, afterLiteral]
  | case3 c rest ih =>
    have hc : c ≠ '\n' := by
      rintro rfl
      exact h ⟨[], rest, rfl⟩
    rw [crlf_cons (by decide), crlf_cons hc, afterLiteral,
      ih (h.of_suffix ⟨['\\', c], rfl⟩)]
  | case4 c rest hlast hmore hstop =>
    have hbackslash : c ≠ '\\' := by
      cases rest with
      | nil => exact fun hc => hlast hc rfl
      | cons d rest => exact fun hc => hmore d rest hc rfl
    by_cases hc : c = '\n'
    · subst hc
      rw [crlf_newline, afterLiteral_cons (by decide), afterLiteral_cons (by decide)]
      simp [Ne.symm hquote]
    · rw [crlf_cons hc, afterLiteral_cons hbackslash, if_pos hstop]
  | case5 c rest hlast hmore hgoes ih =>
    have hbackslash : c ≠ '\\' := by
      cases rest with
      | nil => exact fun hc => hlast hc rfl
      | cons d rest => exact fun hc => hmore d rest hc rfl
    have hc : c ≠ '\n' := fun hc => hgoes (by simp [hc])
    rw [crlf_cons hc, afterLiteral_cons hbackslash, if_neg hgoes,
      ih (h.of_suffix (List.suffix_cons c rest))]

theorem suffix_afterBlockComment (u : Text) : afterBlockComment u <:+ u := by
  fun_induction afterBlockComment u with
  | case1 => exact List.suffix_refl _
  | case2 rest => exact ⟨['*', '/'], rfl⟩
  | case3 c rest hne ih => exact ih.trans (List.suffix_cons c rest)

theorem suffix_afterLiteral (quote : Char) (u : Text) : afterLiteral quote u <:+ u := by
  fun_induction afterLiteral quote u with
  | case1 => exact List.suffix_refl _
  | case2 => exact List.nil_suffix
  | case3 c rest ih => exact ih.trans ⟨['\\', c], rfl⟩
  | case4 c rest => exact List.suffix_cons c rest
  | case5 c rest _ _ _ ih => exact ih.trans (List.suffix_cons c rest)

/-- A line comment goes on over the return. -/
theorem dropWhile_newline_crlf (u : Text) :
    (crlf u).dropWhile (· ≠ '\n') = (crlf (u.dropWhile (· ≠ '\n'))).tail := by
  induction u with
  | nil => rfl
  | cons c u ih =>
    by_cases hc : c = '\n'
    · subst hc
      rfl
    · simpa [crlf_cons hc, hc] using ih

theorem dropWhile_newline_cases (u : Text) :
    u.dropWhile (· ≠ '\n') = [] ∨ ∃ rest, u.dropWhile (· ≠ '\n') = '\n' :: rest := by
  have hhead := List.head?_dropWhile_not (· ≠ '\n') u
  cases hdrop : u.dropWhile (· ≠ '\n') with
  | nil => exact .inl rfl
  | cons c rest =>
    rw [hdrop] at hhead
    exact .inr ⟨rest, by simpa using hhead⟩

/-- Where a comment is in the text with the returns: a line comment takes up the return as well. -/
structure CommentMoves (t : Text) (s s' : Span) : Prop where
  start_le : s.start ≤ t.length
  stop_le : s.stop ≤ t.length
  start : s'.start = t.crlfOffset s.start
  stop : s'.stop = t.crlfOffset s.stop ∨
    t[s.stop]? = some '\n' ∧ s'.stop = t.crlfOffset s.stop + 1

theorem suffix_crlf (h : u <:+ t) : crlf u <:+ crlf t := by
  obtain ⟨before, rfl⟩ := h
  rw [crlf_append]
  exact List.suffix_append _ _

theorem crlfOffset_of_suffix (h : u <:+ t) :
    t.crlfOffset (t.length - u.length) = (crlf t).length - (crlf u).length := by
  obtain ⟨before, rfl⟩ := h
  rw [crlf_append, List.length_append, List.length_append, Nat.add_sub_cancel, Nat.add_sub_cancel,
    crlfOffset_eq, List.take_left]

theorem getElem?_of_suffix {c : Char} (h : c :: u <:+ t) :
    t[t.length - (c :: u).length]? = some c := by
  obtain ⟨before, rfl⟩ := h
  rw [List.length_append, Nat.add_sub_cancel, List.getElem?_append_right le_rfl, Nat.sub_self,
    List.getElem?_cons_zero]

/-- A character that is no line end is next with the returns only if it is next without them. -/
theorem head?_crlf_ne {d : Char} (hd : d ≠ '\r') (h : u.head? ≠ some d) :
    (crlf u).head? ≠ some d := by
  rw [head?_crlf]
  intro hhead
  obtain ⟨c, hc, hcd⟩ := Option.map_eq_some_iff.1 hhead
  split at hcd
  · exact hd hcd.symm
  · exact h (hcd ▸ hc)

/-- What is no opener of a comment or a literal is passed over. -/
theorem commentsFrom_cons {c : Char} (total : Nat) (rest : Text)
    (hcomment : c = '/' → rest.head? ≠ some '/' ∧ rest.head? ≠ some '*')
    (hquote : c ≠ '"' ∧ c ≠ '\'') : commentsFrom total (c :: rest) = commentsFrom total rest := by
  rw [commentsFrom, if_neg (by simpa using hquote)]
  · rintro rest' hc rfl
    exact (hcomment hc).1 rfl
  · rintro rest' hc rfl
    exact (hcomment hc).2 rfl

/-- The comments of the end of a text with the returns are those of the end of the text. -/
theorem forall₂_commentsFrom (hu : u <:+ t) (h : NoSplice u) :
    List.Forall₂ (CommentMoves t) (commentsFrom t.length u)
      (commentsFrom (crlf t).length (crlf u)) := by
  fun_induction commentsFrom t.length u with
  | case1 => rw [crlf_nil, commentsFrom]; exact .nil
  | case2 rest after ih =>
    have hafter : after <:+ '/' :: '/' :: rest :=
      (List.dropWhile_suffix _).trans ⟨['/', '/'], rfl⟩
    have hcases : after = [] ∨ ∃ rest', after = '\n' :: rest' := dropWhile_newline_cases rest
    have hdrop : (crlf rest).dropWhile (· ≠ '\n') = (crlf after).tail :=
      dropWhile_newline_crlf rest
    have hstart := crlfOffset_of_suffix hu
    have hstop := crlfOffset_of_suffix (hafter.trans hu)
    have hmore := ih (hafter.trans hu) (h.of_suffix hafter)
    rw [crlf_cons (by decide), crlf_cons (by decide)] at hstart ⊢
    rw [commentsFrom, hdrop]
    clear_value after
    rcases hcases with rfl | ⟨rest', rfl⟩
    · exact .cons ⟨Nat.sub_le _ _, Nat.sub_le _ _, hstart.symm, .inl hstop.symm⟩ hmore
    · -- the comment stops at a newline, and with the returns behind the return
      have hlast := getElem?_of_suffix (hafter.trans hu)
      have hle := (suffix_crlf (hafter.trans hu)).length_le
      rw [crlf_newline] at hstop hmore hle ⊢
      refine .cons ⟨Nat.sub_le _ _, Nat.sub_le _ _, hstart.symm, .inr ⟨hlast, ?_⟩⟩ ?_
      · simp only [List.length_cons, List.tail_cons] at hstop hle ⊢
        omega
      · rwa [commentsFrom_cons _ ('\n' :: _) (by simp) (by decide)] at hmore
  | case3 rest after ih =>
    have hafter : after <:+ '/' :: '*' :: rest :=
      (suffix_afterBlockComment rest).trans ⟨['/', '*'], rfl⟩
    have hstart := crlfOffset_of_suffix hu
    have hstop := crlfOffset_of_suffix (hafter.trans hu)
    have hmore := ih (hafter.trans hu) (h.of_suffix hafter)
    rw [crlf_cons (by decide), crlf_cons (by decide)] at hstart ⊢
    rw [commentsFrom, afterBlockComment_crlf]
    exact .cons ⟨Nat.sub_le _ _, Nat.sub_le _ _, hstart.symm, .inl hstop.symm⟩ hmore
  | case4 c rest h1 h2 hquote ih =>
    have hafter : afterLiteral c rest <:+ c :: rest :=
      (suffix_afterLiteral c rest).trans (List.suffix_cons c rest)
    have hmore := ih (hafter.trans hu) (h.of_suffix hafter)
    have hc : c ≠ '\n' ∧ c ≠ '\r' := by
      simp only [Bool.or_eq_true, decide_eq_true_eq] at hquote
      rcases hquote with rfl | rfl <;> decide
    rw [← afterLiteral_crlf hc.2 (h.of_suffix (List.suffix_cons c rest))] at hmore
    rw [crlf_cons hc.1, commentsFrom, if_pos hquote]
    · exact hmore
    · rintro _ rfl
      exact absurd hquote (by decide)
    · rintro _ rfl
      exact absurd hquote (by decide)
  | case5 c rest h1 h2 hquote ih =>
    have hmore := ih ((List.suffix_cons c rest).trans hu) (h.of_suffix (List.suffix_cons c rest))
    simp only [Bool.or_eq_true, decide_eq_true_eq, not_or] at hquote
    by_cases hc : c = '\n'
    · subst hc
      rw [crlf_newline, commentsFrom_cons _ _ (by simp) (by decide),
        commentsFrom_cons _ _ (by simp) (by decide)]
      exact hmore
    · rw [crlf_cons hc, commentsFrom_cons _ _ ?_ hquote]
      · exact hmore
      · intro hslash
        refine ⟨head?_crlf_ne (by decide) fun hhead => ?_,
          head?_crlf_ne (by decide) fun hhead => ?_⟩
        · obtain ⟨rest', rfl⟩ := List.head?_eq_some_iff.1 hhead
          exact h1 rest' hslash rfl
        · obtain ⟨rest', rfl⟩ := List.head?_eq_some_iff.1 hhead
          exact h2 rest' hslash rfl

/-- A character that is no newline is in front of the end of a comment in both texts or in none, and
so behind its start. -/
theorem CommentMoves.bounds {s s' : Span} (h : CommentMoves t s s') {c : Char}
    (hi : t[i]? = some c) (hc : c ≠ '\n') :
    (s'.start ≤ t.crlfOffset i ↔ s.start ≤ i) ∧ (t.crlfOffset i < s'.stop ↔ i < s.stop) := by
  refine ⟨by rw [h.start, crlfOffset_le_iff h.start_le], ?_⟩
  have hlt : i < t.length := (List.getElem?_eq_some_iff.1 hi).1
  rcases h.stop with hstop | ⟨hnewline, hstop⟩
  · rw [hstop, crlfOffset_lt_iff h.stop_le]
  · have hne : i ≠ s.stop := by
      rintro rfl
      rw [hi] at hnewline
      exact hc (Option.some.inj hnewline)
    rw [hstop, Nat.lt_succ_iff, crlfOffset_le_iff hlt.le]
    omega

/-- A character that is no newline is in a comment in both texts or in none. -/
theorem inComment_crlf (h : NoSplice t) {c : Char} (hi : t[i]? = some c) (hc : c ≠ '\n') :
    inComment (comments (crlf t)) (t.crlfOffset i) = inComment (comments t) i := by
  have hmoves := forall₂_commentsFrom (List.suffix_refl t) h
  rw [inComment, inComment, comments, comments]
  generalize commentsFrom t.length t = spans at hmoves ⊢
  generalize commentsFrom (crlf t).length (crlf t) = spans' at hmoves ⊢
  induction hmoves with
  | nil => rfl
  | @cons s s' spans spans' hspan _ ih =>
    obtain ⟨hstart, hstop⟩ := hspan.bounds hi hc
    rw [List.find?_cons, List.find?_cons]
    by_cases hlt : i < s.stop
    · simp [Span.contains, hstart, hstop, hlt]
    · simpa [hstop, hlt] using ih

/-! ### Blocks -/

/-- Where a block is in the text with the returns. -/
def Block.crlf (t : Text) (b : Block) : Block :=
  ⟨t.crlfOffset b.opening, t.crlfOffset b.stop, b.closed⟩

theorem closingLength?_crlf (depth : Nat) (u : Text) :
    closingLength? depth (crlf u) = (closingLength? depth u).map u.crlfOffset := by
  -- one character further on, what was found behind it is found
  have hnext {c : Char} (hc : c ≠ '\n') (rest : Text) (length? : Option Nat) :
      (length?.map rest.crlfOffset).map (· + 1) =
        (length?.map (· + 1)).map (crlfOffset (c :: rest)) := by
    rw [Option.map_map, Option.map_map]
    refine congrArg (Option.map · length?) (funext fun n => ?_)
    rw [Function.comp_apply, Function.comp_apply, crlfOffset_cons_succ, crlf_cons hc, Nat.add_comm]
    rfl
  fun_induction closingLength? depth u with
  | case1 => rfl
  | case2 depth rest ih =>
    rw [crlf_cons (by decide), closingLength?, if_pos rfl, ih, @hnext '{' (by decide)]
  | case3 depth rest hdepth hopen =>
    rw [crlf_cons (by decide), closingLength?, if_neg hopen, if_pos rfl, if_pos hdepth,
      Option.map_some, crlfOffset_cons_succ]
    rfl
  | case4 depth rest hdepth hopen ih =>
    rw [crlf_cons (by decide), closingLength?, if_neg hopen, if_pos rfl, if_neg hdepth, ih,
      @hnext '}' (by decide)]
  | case5 depth c rest hopen hclose ih =>
    by_cases hc : c = '\n'
    · subst hc
      rw [crlf_newline, closingLength?, if_neg (by decide), if_neg (by decide), closingLength?,
        if_neg (by decide), if_neg (by decide), ih, Option.map_map, Option.map_map, Option.map_map]
      refine congrArg (Option.map · (closingLength? depth rest)) (funext fun n => ?_)
      simp only [Function.comp_apply, crlfOffset_cons_succ]
      exact Nat.add_comm _ 2
    · rw [crlf_cons hc, closingLength?, if_neg hopen, if_neg hclose, ih, hnext hc]

/-- The block from a place on opens and closes at the same braces. -/
theorem block?_crlf (t : Text) (i : Nat) :
    block? (crlf t) (t.crlfOffset i) = (block? t i).map (Block.crlf t) := by
  have hbefore : ((crlf t).drop (t.crlfOffset i)).takeWhile (· ≠ '{') =
      crlf ((t.drop i).takeWhile (· ≠ '{')) := by rw [← crlf_drop, takeWhile_crlf rfl]
  have hbody : ((crlf t).drop (t.crlfOffset i)).dropWhile (· ≠ '{') =
      crlf ((t.drop i).dropWhile (· ≠ '{')) := by rw [← crlf_drop, dropWhile_crlf rfl]
  have hopening := crlfOffset_add_length (List.takeWhile_prefix (l := t.drop i) (· ≠ '{'))
  have hsplit := List.takeWhile_append_dropWhile (p := (· ≠ '{')) (l := t.drop i)
  rw [block?, block?]
  simp only [hbefore, hbody]
  generalize (t.drop i).takeWhile (· ≠ '{') = before at hopening hsplit ⊢
  cases hdrop : (t.drop i).dropWhile (· ≠ '{') with
  | nil => rfl
  | cons c rest =>
    have hrest : t.drop (i + before.length) = c :: rest := by
      rw [← List.drop_drop, ← hsplit, hdrop, List.drop_left]
    have hne : crlf (c :: rest) ≠ [] := by simp
    obtain ⟨d, rest', hcrlf⟩ := List.exists_cons_of_ne_nil hne
    rw [hcrlf]
    simp only
    rw [← hcrlf, closingLength?_crlf, ← hopening]
    cases closingLength? 0 (c :: rest) with
    | none => simp [Block.crlf]
    | some length => simp [Block.crlf, crlfOffset_add t (i + before.length), hrest]

/-- The inside of a block of the text with the returns. -/
theorem inner_crlf {offset : Nat} {b : Block} (h : BlockAt t offset b) :
    (b.crlf t).inner = b.inner.crlf t := by
  have hopening := crlfOffset_succ h.opening_char (by decide)
  rw [Block.inner, Block.inner, Span.crlf, Block.crlf, hopening]
  cases hclosed : b.closed with
  | false => rfl
  | true =>
    obtain ⟨hlt, hclosing⟩ := h.closing hclosed
    have hstop := crlfOffset_succ hclosing (by decide)
    rw [Nat.sub_add_cancel (by omega)] at hstop
    simp only [if_true, hstop, Nat.add_sub_cancel]

/-! ### Documentation comments -/

theorem withoutPrefix_crlf {starts : List String} (h : ∀ s ∈ starts, OnOneLine s.toList)
    (u : Text) : withoutPrefix starts (crlf u) = crlf (withoutPrefix starts u) := by
  have hfirst : (starts.findSome? fun s => after? s.toList (crlf u)) =
      (starts.findSome? fun s => after? s.toList u).map crlf := by
    induction starts with
    | nil => rfl
    | cons s starts ih =>
      rw [List.findSome?_cons, List.findSome?_cons, after?_crlf (h s List.mem_cons_self),
        ih fun s' hs' => h s' (List.mem_cons_of_mem s hs')]
      cases after? s.toList u <;> rfl
  rw [withoutPrefix, withoutPrefix, hfirst]
  cases starts.findSome? fun s => after? s.toList u <;> rfl

theorem withoutSuffix_crlf {finish : String} (h : OnOneLine finish.toList) (u : Text) :
    withoutSuffix finish (crlf u) = crlf (withoutSuffix finish u) := by
  rw [withoutSuffix, withoutSuffix, before?_crlf h]
  cases before? finish.toList u <;> rfl

theorem mem_of_mem_withoutPrefix {starts : List String} {c : Char}
    (h : c ∈ withoutPrefix starts u) : c ∈ u := by
  rw [withoutPrefix] at h
  cases hfind : starts.findSome? fun s => after? s.toList u with
  | none => rwa [hfind] at h
  | some rest =>
    rw [hfind] at h
    obtain ⟨s, -, hs⟩ := List.exists_of_findSome?_eq_some hfind
    rw [after?_eq_some_iff.1 hs]
    exact List.mem_append_right _ h

theorem mem_of_mem_withoutSuffix {finish : String} {c : Char}
    (h : c ∈ withoutSuffix finish u) : c ∈ u := by
  rw [withoutSuffix] at h
  cases hfind : before? finish.toList u with
  | none => rwa [hfind] at h
  | some front =>
    rw [hfind] at h
    rw [before?_eq_some_iff.1 hfind]
    exact List.mem_append_left _ h

/-- A comment reads the same. -/
theorem cleanComment?_crlf (h : '\r' ∉ u) : cleanComment? (crlf u) = cleanComment? u := by
  have hreturn : '\r' ∉ withoutSuffix "*/" (withoutPrefix ["/**", "/*"] (trim u)) :=
    fun hmem => h (mem_of_mem_trim (mem_of_mem_withoutPrefix (mem_of_mem_withoutSuffix hmem)))
  simp only [cleanComment?]
  rw [trim_crlf, withoutPrefix_crlf (by simp [OnOneLine]), withoutSuffix_crlf (by simp [OnOneLine]),
    lines_crlf hreturn]

/-! ### Parameters -/

/-- Ends of lines neither open nor close brackets, nor do they separate. -/
theorem Brackets.split_crlf {b : Brackets} (depth : Int) (u : Text)
    (h : ∀ c, c = '\r' ∨ c = '\n' →
      b.opens c = false ∧ b.closes c = false ∧ ∀ depth, b.separates depth c = false) :
    b.split depth (crlf u) = (b.split depth u).map crlf := by
  induction u generalizing depth with
  | nil => rfl
  | cons c u ih =>
    by_cases hc : c = '\n'
    · subst hc
      obtain ⟨hopens, hcloses, hseparates⟩ := h '\n' (.inr rfl)
      obtain ⟨hopens', hcloses', hseparates'⟩ := h '\r' (.inl rfl)
      simp only [crlf_newline, split, hseparates, hseparates', step_eq_self hopens hcloses,
        step_eq_self hopens' hcloses', ih, Bool.false_eq_true, if_false]
      cases b.split depth u <;> simp
    · simp only [crlf_cons hc, split, ih]
      by_cases hseparates : b.separates depth c = true
      · simp [hseparates]
      · cases b.split (b.step depth c) u <;> simp [hseparates, crlf_cons hc]

theorem splitParameters_crlf (u : Text) : splitParameters (crlf u) = splitParameters u := by
  rw [splitParameters, splitParameters, Brackets.split_crlf, List.map_map]
  · simp only [Function.comp_def, words_crlf]
  · rintro c (rfl | rfl)
    all_goals simp [parameterBrackets]

end Glossator.Java

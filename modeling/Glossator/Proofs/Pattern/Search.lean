import Glossator.Proofs.Pattern.Lead
import Glossator.Pattern.Search

/-!
# Searching finds the first outcome

A finder searches with sets of places and bars the ways that cannot lead to a match. Here its
answers are traced back to the outcomes of the pattern: the match at a place is the first outcome
there, and a search finds the first place that has one.

* `Plan.attempt_guided`: barring ways that lead nowhere changes no answer.
* `Finder.at?_ofPattern`: the match at a place is the first outcome of the pattern there.
* `Finder.find?_eq_some_iff`, `Finder.find?_eq_none_iff`: what a search finds, and when nothing.
-/

set_option autoImplicit false

namespace Glossator

variable {γ β : Type}

/-! ### Plans of patterns -/

namespace Pattern

/-- An outcome at a place of a text is at a later place of the same text. -/
theorem inText_of_mem_outcomes {p : Pattern γ} {t : Text} {i : Nat} {parts : List (γ × Span)}
    {o' : Outcome γ} (hi : i ≤ t.length) (h : o' ∈ p.outcomes ⟨.inText t i, parts⟩) :
    o'.cursor = .inText t o'.cursor.offset ∧ i ≤ o'.cursor.offset ∧
      o'.cursor.offset ≤ t.length := by
  obtain ⟨piece, hread, -⟩ := (reads_of_mem_outcomes h).reads
  have hoffset : o'.cursor.offset = i + piece.length := hread.offset_eq
  have hstop := hread.stop_le hi
  refine ⟨?_, by omega, by omega⟩
  rw [hoffset]
  exact hread.eq_inText

end Pattern

namespace Plan

/-- The number of places in a row that hold a character of a class. -/
theorem runLength_whereTest (t : Text) (cls : Char → Bool) {bound i : Nat}
    (hbound : t.length ≤ bound + i) :
    runLength (Places.whereTest t fun c => c.rest.head?.any cls) bound i =
      ((t.drop i).takeWhile cls).length := by
  induction bound generalizing i with
  | zero =>
    rw [runLength, List.drop_eq_nil_of_le (by omega)]
    rfl
  | succ bound ih =>
    rw [runLength, Places.testBit_whereTest, Cursor.inText_rest]
    cases hdrop : t.drop i with
    | nil => simp
    | cons c rest =>
      have hlt : i < t.length := by
        have := congrArg List.length hdrop
        rw [List.length_drop, List.length_cons] at this
        omega
      have hrest : t.drop (i + 1) = rest := by
        rw [← List.drop_drop, hdrop, List.drop_succ_cons, List.drop_zero]
      by_cases hc : cls c
      · simp [hlt.le, hc, ih (by omega : t.length ≤ bound + (i + 1)), hrest]
      · simp [hc]

theorem attemptDown_eq (next : Nat → Option β) (length : Nat) :
    attemptDown next length = (List.range (length + 1)).reverse.findSome? next := by
  induction length with
  | zero => simp [attemptDown]
  | succ length ih =>
    rw [attemptDown, ih, List.range_succ (n := length + 1), List.reverse_append,
      List.findSome?_append]
    simp

/-- A plan answers as the pattern that it was made from. -/
theorem attempt_plan (p : Pattern γ) {t : Text} {i : Nat} (hi : i ≤ t.length)
    (parts : List (γ × Span)) (next : Progress γ → Option β) :
    (p.plan t).attempt t.length ⟨i, parts⟩ next =
      p.lead ⟨.inText t i, parts⟩ fun o => next ⟨o.cursor.offset, o.parts⟩ := by
  induction p generalizing i parts next with
  | empty => rw [Pattern.lead_empty]; rfl
  | fixed piece =>
    rw [Pattern.plan, attempt, Places.testBit_whereTest, Pattern.lead_fixed]
    simp [hi, Cursor.behind]
  | one cls =>
    rw [Pattern.plan, attempt, Places.testBit_whereTest, Pattern.lead_one]
    cases hdrop : t.drop i <;> simp [hi, hdrop]
  | many cls =>
    rw [Pattern.plan, attempt, attemptDown_eq, runLength_whereTest t cls (by omega),
      Pattern.lead_many]
    apply Pattern.findSome?_congr
    intro n hn
    have hlt : n < ((t.drop i).takeWhile cls).length + 1 :=
      List.mem_range.1 (List.mem_reverse.1 hn)
    have hle := (List.takeWhile_prefix (l := t.drop i) cls).length_le
    have hmin : min n (t.drop i).length = n := by omega
    simp only [Cursor.behind, Cursor.inText_rest, Cursor.inText_offset, List.length_take, hmin]
  | lineStart =>
    rw [Pattern.plan, attempt, Places.testBit_whereTest, Pattern.lead_lineStart]
    simp [hi]
  | wordEdge =>
    rw [Pattern.plan, attempt, Places.testBit_whereTest, Pattern.lead_wordEdge]
    simp [hi]
  | andThen first second ihFirst ihSecond =>
    rw [Pattern.plan, attempt, ihFirst hi, Pattern.lead_andThen]
    apply Pattern.lead_congr
    intro o' ho'
    obtain ⟨hcursor, -, hle⟩ := Pattern.inText_of_mem_outcomes hi ho'
    rw [ihSecond hle, ← hcursor]
  | orElse left right ihLeft ihRight =>
    rw [Pattern.plan, attempt, ihLeft hi, ihRight hi, Pattern.lead_orElse]
  | star body ih =>
    -- both repeat with the same bound, the number of characters left
    have hrepeat (bound : Nat) {i : Nat} (hi : i ≤ t.length) (parts : List (γ × Span)) :
        attemptRepeat (attempt t.length (body.plan t)) next bound ⟨i, parts⟩ =
          (Pattern.Outcome.repeat body.outcomes bound ⟨.inText t i, parts⟩).findSome?
            fun o => next ⟨o.cursor.offset, o.parts⟩ := by
      induction bound generalizing i parts with
      | zero => simp [attemptRepeat, Pattern.Outcome.repeat]
      | succ bound ihBound =>
        rw [attemptRepeat, Pattern.Outcome.repeat, List.findSome?_append,
          Pattern.findSome?_flatMap, ih hi]
        congr 1
        · apply Pattern.lead_congr
          intro o' ho'
          obtain ⟨hcursor, -, hle⟩ := Pattern.inText_of_mem_outcomes hi ho'
          by_cases hlt : i < o'.cursor.offset
          · simp only [Cursor.inText_offset, hlt, if_true]
            rw [ihBound hle, ← hcursor]
          · simp only [Cursor.inText_offset, hlt, if_false, List.findSome?_nil]
        · simp
    rw [Pattern.plan, attempt, hrepeat _ hi, Pattern.lead, Pattern.outcomes, Cursor.inText_rest,
      List.length_drop]
  | part name body ih =>
    rw [Pattern.plan, attempt, ih hi, Pattern.lead_part]
    rfl

/-! ### Barring ways that lead nowhere -/

/-- The plan never leaves a text of the given size. -/
def StaysWithin (size : Nat) : Plan γ → Prop
  | stay | guard _ => True
  | step width places => ∀ i, places.testBit i = true → i + width ≤ size
  | run places => ∀ i, places.testBit i = true → i < size
  | andThen first second => first.StaysWithin size ∧ second.StaysWithin size
  | orElse left right => left.StaysWithin size ∧ right.StaysWithin size
  | star body | part _ body => body.StaysWithin size

theorem staysWithin_plan (p : Pattern γ) (t : Text) : (p.plan t).StaysWithin t.length := by
  induction p with
  | empty | lineStart | wordEdge => trivial
  | fixed piece =>
    intro i hi
    rw [Places.testBit_whereTest, Bool.and_eq_true, decide_eq_true_eq] at hi
    have := (List.isPrefixOf_iff_prefix.1 hi.2).length_le
    rw [Cursor.inText_rest, List.length_drop] at this
    omega
  | one cls =>
    intro i hi
    rw [Places.testBit_whereTest, Bool.and_eq_true] at hi
    by_contra hlt
    rw [Cursor.inText_rest, List.drop_eq_nil_of_le (by omega)] at hi
    simp at hi
  | many cls =>
    intro i hi
    rw [Places.testBit_whereTest, Bool.and_eq_true] at hi
    by_contra hlt
    rw [Cursor.inText_rest, List.drop_eq_nil_of_le (by omega)] at hi
    simp at hi
  | andThen first second ihFirst ihSecond => exact ⟨ihFirst, ihSecond⟩
  | orElse left right ihLeft ihRight => exact ⟨ihLeft, ihRight⟩
  | star body ih | part name body ih => exact ih

theorem add_runLength_le {places : Places} {size bound offset : Nat}
    (hplaces : ∀ i, places.testBit i = true → i < size) (ho : offset ≤ size) :
    offset + runLength places bound offset ≤ size := by
  induction bound generalizing offset with
  | zero => exact ho
  | succ bound ih =>
    rw [runLength]
    split
    · next h =>
      have hnext : offset + 1 + runLength places bound (offset + 1) ≤ size := ih (hplaces _ h)
      omega
    · exact ho

theorem testBit_of_lt_runLength {places : Places} {bound offset j : Nat}
    (hj : j < runLength places bound offset) : places.testBit (offset + j) = true := by
  induction bound generalizing offset j with
  | zero => simp [runLength] at hj
  | succ bound ih =>
    rw [runLength] at hj
    split at hj
    · next h =>
      cases j with
      | zero => exact h
      | succ j =>
        have := ih (Nat.lt_of_succ_lt_succ hj)
        rwa [Nat.add_assoc, Nat.add_comm 1 j] at this
    · omega

theorem runLength_le (places : Places) (bound offset : Nat) :
    runLength places bound offset ≤ bound := by
  induction bound generalizing offset with
  | zero => exact le_rfl
  | succ bound ih =>
    rw [runLength]
    split
    · exact Nat.succ_le_succ (ih _)
    · exact Nat.zero_le _

theorem exists_le_of_attemptDown {next : Nat → Option β} {length : Nat} {r : β}
    (h : attemptDown next length = some r) : ∃ n ≤ length, next n = some r := by
  rw [attemptDown_eq] at h
  obtain ⟨n, hn, h⟩ := List.exists_of_findSome?_eq_some h
  exact ⟨n, Nat.lt_succ_iff.1 (List.mem_range.1 (List.mem_reverse.1 hn)), h⟩

/-- A plan that stays within a text asks what follows only about places of the text. -/
theorem attempt_congr {size : Nat} {p : Plan γ} (hp : p.StaysWithin size) {o : Progress γ}
    (ho : o.offset ≤ size) {next next' : Progress γ → Option β}
    (h : ∀ o' : Progress γ, o'.offset ≤ size → next o' = next' o') :
    p.attempt size o next = p.attempt size o next' := by
  induction p generalizing o next next' with
  | stay => exact h o ho
  | guard places => simp only [attempt, h o ho]
  | step width places =>
    simp only [attempt]
    split
    · next hbit => exact h _ (hp _ hbit)
    · rfl
  | run places =>
    rw [attempt, attempt, attemptDown_eq, attemptDown_eq]
    apply Pattern.findSome?_congr
    intro n hn
    have hlt := List.mem_range.1 (List.mem_reverse.1 hn)
    have hle : o.offset + runLength places size o.offset ≤ size := add_runLength_le hp ho
    exact h _ (by simp only; omega)
  | andThen first second ihFirst ihSecond =>
    exact ihFirst hp.1 ho fun o' ho' => ihSecond hp.2 ho' h
  | orElse left right ihLeft ihRight =>
    rw [attempt, attempt, ihLeft hp.1 ho h, ihRight hp.2 ho h]
  | star body ih =>
    have hrepeat (bound : Nat) {o : Progress γ} (ho : o.offset ≤ size) :
        attemptRepeat (body.attempt size) next bound o =
          attemptRepeat (body.attempt size) next' bound o := by
      induction bound generalizing o with
      | zero => exact h o ho
      | succ bound ihBound =>
        rw [attemptRepeat, attemptRepeat, h o ho]
        congr 1
        apply ih hp ho
        intro o' ho'
        rw [ihBound ho']
    exact hrepeat _ ho
  | part name body ih => exact ih hp ho fun o' ho' => h _ ho'

/-- The closure of a goal holds every place from which repeating a step leads to the goal. -/
theorem testBit_closure_of_attemptRepeat {size : Nat} {body : Plan γ} {goal : Places}
    {next : Progress γ → Option β} {r : β}
    (hgoal : ∀ o' : Progress γ, o'.offset ≤ size → next o' = some r →
      goal.testBit o'.offset = true)
    (hbody : ∀ {goal : Places} {o : Progress γ} {next : Progress γ → Option β},
      o.offset ≤ size → (∀ o' : Progress γ, o'.offset ≤ size → next o' = some r →
        goal.testBit o'.offset = true) →
      body.attempt size o next = some r → (body.reach size goal).testBit o.offset = true)
    {bound : Nat} {o : Progress γ} (ho : o.offset ≤ size)
    (h : attemptRepeat (body.attempt size) next bound o = some r) :
    ((star body).reach size goal).testBit o.offset = true := by
  induction bound generalizing o with
  | zero => exact Places.testBit_closure_of_goal ho (hgoal o ho h)
  | succ bound ih =>
    rw [attemptRepeat, Option.or_eq_some_iff] at h
    rcases h with h | ⟨-, h⟩
    · refine Places.step_closure_subset ho (hbody ho ?_ h)
      intro o' ho' h'
      split at h'
      · exact ih ho' h'
      · cases h'
    · exact Places.testBit_closure_of_goal ho (hgoal o ho h)

/-- A plan gets to a goal only from places from which it can get there. -/
theorem testBit_reach {size : Nat} {p : Plan γ} (hp : p.StaysWithin size) {goal : Places}
    {o : Progress γ} {next : Progress γ → Option β} {r : β} (ho : o.offset ≤ size)
    (hgoal : ∀ o' : Progress γ, o'.offset ≤ size → next o' = some r →
      goal.testBit o'.offset = true)
    (h : p.attempt size o next = some r) : (p.reach size goal).testBit o.offset = true := by
  induction p generalizing goal o next with
  | stay => exact hgoal o ho h
  | guard places =>
    simp only [attempt] at h
    split at h
    · next hbit => rw [reach, Nat.testBit_and, hgoal o ho h, hbit, Bool.and_self]
    · cases h
  | step width places =>
    simp only [attempt] at h
    split at h
    · next hbit =>
      have hthere := hgoal _ (hp _ hbit) h
      rw [reach, Nat.testBit_and, Nat.testBit_shiftRight, hbit, Nat.add_comm, hthere, Bool.and_self]
    · cases h
  | run places =>
    obtain ⟨n, hn, h⟩ := exists_le_of_attemptDown h
    have hle : o.offset + runLength places size o.offset ≤ size := add_runLength_le hp ho
    have hthere := hgoal _ (by simp only; omega) h
    refine Places.testBit_runsTo_of_run (n := n) ?_ ?_ ?_
    · have := runLength_le places size o.offset
      have := @Nat.lt_log2_self size
      omega
    · intro j hj
      rw [Nat.mul_one]
      exact testBit_of_lt_runLength (hj.trans_le hn)
    · rw [Nat.mul_one]
      exact hthere
  | andThen first second ihFirst ihSecond =>
    exact ihFirst hp.1 ho (fun o' ho' h' => ihSecond hp.2 ho' hgoal h') h
  | orElse left right ihLeft ihRight =>
    rw [attempt, Option.or_eq_some_iff] at h
    rw [reach, Nat.testBit_or, Bool.or_eq_true]
    rcases h with h | ⟨-, h⟩
    · exact .inl (ihLeft hp.1 ho hgoal h)
    · exact .inr (ihRight hp.2 ho hgoal h)
  | star body ih =>
    have hbody : body.StaysWithin size := hp
    exact testBit_closure_of_attemptRepeat hgoal (fun ho hgoal h => ih hbody ho hgoal h) ho h
  | part name body ih =>
    rw [attempt] at h
    refine ih hp ho ?_ h
    intro o' ho' h'
    exact hgoal ⟨o'.offset, (name, ⟨o.offset, o'.offset⟩) :: o'.parts⟩ ho' h'

/-- A continuation that answers nowhere but in a set need not be asked elsewhere. -/
theorem ite_testBit_eq {places : Places} {offset : Nat} {x : Option β}
    (h : ∀ r, x = some r → places.testBit offset = true) :
    (if places.testBit offset then x else none) = x := by
  split
  · rfl
  · next hbit =>
    cases x with
    | none => rfl
    | some r => exact absurd (h r rfl) hbit

theorem staysWithin_guided {size : Nat} {p : Plan γ} (hp : p.StaysWithin size) (goal : Places) :
    (p.guided size goal).StaysWithin size := by
  induction p generalizing goal with
  | stay | guard places | step width places | run places => exact hp
  | andThen first second ihFirst ihSecond => exact ⟨ihFirst hp.1 _, trivial, ihSecond hp.2 _⟩
  | orElse left right ihLeft ihRight => exact ⟨ihLeft hp.1 _, ihRight hp.2 _⟩
  | star body ih => exact ⟨ih hp _, trivial⟩
  | part name body ih => exact ih hp _

/-- Barring the ways that cannot lead to the goal changes no answer. -/
theorem attempt_guided {size : Nat} {p : Plan γ} (hp : p.StaysWithin size) {goal : Places}
    {o : Progress γ} {next : Progress γ → Option β} (ho : o.offset ≤ size)
    (hgoal : ∀ o' : Progress γ, o'.offset ≤ size → ∀ r, next o' = some r →
      goal.testBit o'.offset = true) :
    (p.guided size goal).attempt size o next = p.attempt size o next := by
  induction p generalizing goal o next with
  | stay | guard places | step width places | run places => rfl
  | andThen first second ihFirst ihSecond =>
    have hbetween (o' : Progress γ) (ho' : o'.offset ≤ size) (r : β)
        (h : second.attempt size o' next = some r) :
        (second.reach size goal).testBit o'.offset = true :=
      testBit_reach hp.2 ho' (fun o'' ho'' h'' => hgoal o'' ho'' r h'') h
    simp only [guided, attempt]
    rw [← ihFirst hp.1 ho hbetween]
    refine attempt_congr (staysWithin_guided hp.1 _) ho ?_
    intro o' ho'
    rw [ihSecond hp.2 ho' hgoal]
    exact ite_testBit_eq (hbetween o' ho')
  | orElse left right ihLeft ihRight =>
    rw [guided, attempt, attempt, ihLeft hp.1 ho hgoal, ihRight hp.2 ho hgoal]
  | star body ih =>
    have hbody : body.StaysWithin size := hp
    -- every place from which the repetition leads on belongs to the closure
    have hagain (bound : Nat) (o' : Progress γ) (ho' : o'.offset ≤ size) (r : β)
        (h : attemptRepeat (body.attempt size) next bound o' = some r) :
        ((star body).reach size goal).testBit o'.offset = true :=
      testBit_closure_of_attemptRepeat (fun o'' ho'' h'' => hgoal o'' ho'' r h'')
        (fun ho hgoal h => testBit_reach hbody ho hgoal h) ho' h
    have hrepeat (bound : Nat) {o : Progress γ} (ho : o.offset ≤ size) :
        attemptRepeat (attempt size (.andThen (body.guided size ((star body).reach size goal))
          (.guard ((star body).reach size goal)))) next bound o =
          attemptRepeat (body.attempt size) next bound o := by
      induction bound generalizing o with
      | zero => rfl
      | succ bound ihBound =>
        have hnext (o' : Progress γ) (ho' : o'.offset ≤ size) (r : β)
            (h : (if o.offset < o'.offset then
              attemptRepeat (body.attempt size) next bound o' else none) = some r) :
            ((star body).reach size goal).testBit o'.offset = true := by
          split at h
          · exact hagain bound o' ho' r h
          · cases h
        rw [attemptRepeat, attemptRepeat]
        congr 1
        rw [attempt, ← ih hbody ho hnext]
        refine attempt_congr (staysWithin_guided hbody _) ho ?_
        intro o' ho'
        rw [attempt, ihBound ho']
        exact ite_testBit_eq (hnext o' ho')
    exact hrepeat _ ho
  | part name body ih =>
    exact ih hp ho fun o' ho' r h =>
      hgoal ⟨o'.offset, (name, ⟨o.offset, o'.offset⟩) :: o'.parts⟩ ho' r h

end Plan

/-! ### What a search finds -/

namespace Pattern

/-- The match of a pattern at a place of a text: its first outcome there. -/
def matchAt? (p : Pattern γ) (t : Text) (i : Nat) : Option (Match γ) :=
  p.lead ⟨.inText t i, []⟩ fun o => some ⟨i, o.cursor.offset, o.parts⟩

theorem matchAt?_eq_none_iff {p : Pattern γ} {t : Text} {i : Nat} :
    p.matchAt? t i = none ↔ p.outcomes ⟨.inText t i, []⟩ = [] := by
  rw [matchAt?, lead_eq_none_iff]
  constructor
  · intro h
    exact List.eq_nil_iff_forall_not_mem.2 fun o ho => absurd (h o ho) (by simp)
  · intro h
    simp [h]

theorem exists_of_matchAt? {p : Pattern γ} {t : Text} {i : Nat} {m : Match γ}
    (h : p.matchAt? t i = some m) : ∃ o ∈ p.outcomes ⟨.inText t i, []⟩,
      m = ⟨i, o.cursor.offset, o.parts⟩ := by
  obtain ⟨o, ho, heq⟩ := exists_of_lead_eq_some h
  exact ⟨o, ho, (Option.some.inj heq).symm⟩

end Pattern

namespace Finder

variable {p : Pattern γ} {t : Text}

/-- The match at a place is the first outcome of the pattern there. -/
theorem at?_ofPattern {i : Nat} (hi : i ≤ t.length) : (ofPattern p t).at? i = p.matchAt? t i := by
  have hstays := Plan.staysWithin_plan p t
  have heverywhere (j : Nat) (hj : j ≤ t.length) :
      (Places.upTo (t.length + 1)).testBit j = true := by
    rw [Places.testBit_upTo, decide_eq_true_eq]
    omega
  simp only [at?, ofPattern]
  rw [Plan.attempt_guided hstays hi fun o' ho' _ _ => heverywhere o'.offset ho']
  have hanswer := Plan.attempt_plan p hi [] fun o => some (⟨i, o.offset, o.parts⟩ : Match γ)
  rw [hanswer]
  exact Plan.ite_testBit_eq fun r hr => Plan.testBit_reach hstays hi
    (fun o' ho' _ => heverywhere o'.offset ho') (hanswer.trans hr)

/-- Over a number of places a search finds nothing exactly if none of them has a match. -/
theorem search?_eq_none_iff {count offset : Nat} (h : offset + count ≤ t.length + 1) :
    (ofPattern p t).search? count offset = none ↔
      ∀ i, offset ≤ i → i < offset + count → p.matchAt? t i = none := by
  induction count generalizing offset with
  | zero => simp only [search?, true_iff]; omega
  | succ count ih =>
    rw [search?, Option.or_eq_none_iff, ih (by omega), at?_ofPattern (by omega)]
    constructor
    · rintro ⟨hhere, hlater⟩ i hle hlt
      rcases Nat.eq_or_lt_of_le hle with rfl | hgt
      · exact hhere
      · exact hlater i hgt (by omega)
    · intro hall
      exact ⟨hall offset le_rfl (by omega), fun i hle hlt => hall i (by omega) (by omega)⟩

/-- Over a number of places a search finds the match at the first place that has one. -/
theorem search?_eq_some_iff {count offset : Nat} {m : Match γ}
    (h : offset + count ≤ t.length + 1) :
    (ofPattern p t).search? count offset = some m ↔
      offset ≤ m.start ∧ m.start < offset + count ∧ p.matchAt? t m.start = some m ∧
        ∀ i, offset ≤ i → i < m.start → p.matchAt? t i = none := by
  induction count generalizing offset with
  | zero => simp only [search?, reduceCtorEq, false_iff]; omega
  | succ count ih =>
    rw [search?, Option.or_eq_some_iff, ih (by omega), at?_ofPattern (by omega)]
    constructor
    · rintro (hhere | ⟨hhere, hle, hlt, hmatch, hearlier⟩)
      · obtain ⟨o, -, rfl⟩ := Pattern.exists_of_matchAt? hhere
        exact ⟨le_rfl, by simp only; omega, hhere, fun i hle hlt => by simp only at hlt; omega⟩
      · refine ⟨by omega, by omega, hmatch, fun i hi hilt => ?_⟩
        rcases Nat.eq_or_lt_of_le hi with rfl | hgt
        · exact hhere
        · exact hearlier i hgt hilt
    · rintro ⟨hle, hlt, hmatch, hearlier⟩
      rcases Nat.eq_or_lt_of_le hle with heq | hgt
      · left
        rw [heq]
        exact hmatch
      · right
        exact ⟨hearlier offset le_rfl hgt, hgt, by omega, hmatch,
          fun i hi hilt => hearlier i (by omega) hilt⟩

/-- A search finds nothing exactly if no place from the offset on has a match. -/
theorem find?_eq_none_iff {offset : Nat} : (ofPattern p t).find? offset = none ↔
    ∀ i, offset ≤ i → i ≤ t.length → p.matchAt? t i = none := by
  rw [find?]
  change (ofPattern p t).search? (t.length + 1 - offset) offset = none ↔ _
  by_cases h : offset ≤ t.length + 1
  · rw [search?_eq_none_iff (by omega)]
    constructor
    · intro hall i hle hlen
      exact hall i hle (by omega)
    · intro hall i hle hlt
      exact hall i hle (by omega)
  · rw [Nat.sub_eq_zero_of_le (by omega), search?]
    simp only [true_iff]
    omega

/-- A search finds the match at the first place from the offset on that has one. -/
theorem find?_eq_some_iff {offset : Nat} {m : Match γ} :
    (ofPattern p t).find? offset = some m ↔
      offset ≤ m.start ∧ m.start ≤ t.length ∧ p.matchAt? t m.start = some m ∧
        ∀ i, offset ≤ i → i < m.start → p.matchAt? t i = none := by
  rw [find?]
  change (ofPattern p t).search? (t.length + 1 - offset) offset = some m ↔ _
  by_cases h : offset ≤ t.length + 1
  · rw [search?_eq_some_iff (by omega)]
    constructor
    · rintro ⟨hle, hlt, hrest⟩
      exact ⟨hle, by omega, hrest⟩
    · rintro ⟨hle, hlt, hrest⟩
      exact ⟨hle, by omega, hrest⟩
  · rw [Nat.sub_eq_zero_of_le (by omega), search?]
    simp only [reduceCtorEq, false_iff]
    omega

theorem exists_of_find? {offset : Nat} {m : Match γ} (h : (ofPattern p t).find? offset = some m) :
    m.start ≤ t.length ∧ ∃ o ∈ p.outcomes ⟨.inText t m.start, []⟩,
      m = ⟨m.start, o.cursor.offset, o.parts⟩ := by
  obtain ⟨-, hlen, hmatch, -⟩ := find?_eq_some_iff.1 h
  exact ⟨hlen, Pattern.exists_of_matchAt? hmatch⟩

theorem start_le_stop_of_find? {offset : Nat} {m : Match γ}
    (h : (ofPattern p t).find? offset = some m) : m.start ≤ m.stop ∧ m.stop ≤ t.length := by
  obtain ⟨hlen, o, ho, heq⟩ := exists_of_find? h
  have hin := Pattern.inText_of_mem_outcomes hlen ho
  rw [heq]
  exact ⟨hin.2.1, hin.2.2⟩

/-- Each of several matches is what a search finds from the end of the one before it. -/
theorem find?_of_mem_allFrom {bound offset : Nat} {m : Match γ}
    (h : m ∈ (ofPattern p t).allFrom bound offset) :
    ∃ from', offset ≤ from' ∧ (ofPattern p t).find? from' = some m := by
  induction bound generalizing offset with
  | zero => cases h
  | succ bound ih =>
    rw [allFrom] at h
    split at h
    · cases h
    · next first hfirst =>
      rcases List.mem_cons.1 h with rfl | h
      · exact ⟨offset, le_rfl, hfirst⟩
      · split at h
        · obtain ⟨from', hle, hfind⟩ := ih h
          have := start_le_of_find? hfirst
          have := (start_le_stop_of_find? hfirst).1
          exact ⟨from', by omega, hfind⟩
        · cases h

/-- Of several matches, each starts where the ones before it have ended. -/
theorem pairwise_allFrom (bound offset : Nat) : ((ofPattern p t).allFrom bound offset).Pairwise
    fun m m' => m.stop ≤ m'.start := by
  induction bound generalizing offset with
  | zero => exact .nil
  | succ bound ih =>
    rw [allFrom]
    split
    · exact .nil
    · next first hfirst =>
      split
      · refine .cons ?_ (ih _)
        intro m hm
        obtain ⟨from', hle, hfind⟩ := find?_of_mem_allFrom hm
        exact hle.trans (start_le_of_find? hfind)
      · exact .cons (by simp) .nil

/-! ### Matches one after another -/

/-- The search from a place on finds the same as from a later place if none between them has a
match. -/
theorem find?_eq_of_forall {offset offset' : Nat} (hle : offset ≤ offset')
    (h : ∀ i, offset ≤ i → i < offset' → p.matchAt? t i = none) :
    (ofPattern p t).find? offset = (ofPattern p t).find? offset' := by
  cases hfind : (ofPattern p t).find? offset' with
  | none =>
    rw [find?_eq_none_iff] at hfind ⊢
    intro i hi hlen
    rcases Nat.lt_or_ge i offset' with hlt | hge
    · exact h i hi hlt
    · exact hfind i hge hlen
  | some m =>
    rw [find?_eq_some_iff] at hfind ⊢
    obtain ⟨hstart, hlen, hmatch, hearlier⟩ := hfind
    refine ⟨by omega, hlen, hmatch, ?_⟩
    intro i hi hlt
    rcases Nat.lt_or_ge i offset' with hlt' | hge
    · exact h i hi hlt'
    · exact hearlier i hge hlt

theorem find?_of_matchAt? {offset : Nat} {m : Match γ} (hlen : offset ≤ t.length)
    (h : p.matchAt? t offset = some m) : (ofPattern p t).find? offset = some m := by
  obtain ⟨o, -, rfl⟩ := Pattern.exists_of_matchAt? h
  exact find?_eq_some_iff.2 ⟨le_rfl, hlen, h, fun i hi hlt => absurd hi (Nat.not_le.2 hlt)⟩

/-- The bound on the number of matches does not matter once it covers the places left. -/
theorem allFrom_eq_of_le {bound bound' offset : Nat} (h : t.length + 1 ≤ bound + offset)
    (h' : t.length + 1 ≤ bound' + offset) :
    (ofPattern p t).allFrom bound offset = (ofPattern p t).allFrom bound' offset := by
  have hnone {offset : Nat} (hoffset : t.length + 1 ≤ offset) :
      (ofPattern p t).find? offset = none :=
    find?_eq_none_iff.2 fun i hi hlen => by omega
  induction bound generalizing bound' offset with
  | zero =>
    cases bound' with
    | zero => rfl
    | succ bound' => rw [allFrom, allFrom, hnone (by omega)]
  | succ bound ih =>
    cases bound' with
    | zero => rw [allFrom, allFrom, hnone (by omega)]
    | succ bound' =>
      rw [allFrom, allFrom]
      split
      · rfl
      · next m hm =>
        have hle := start_le_of_find? hm
        split
        · congr 1
          exact ih (by omega) (by omega)
        · rfl

/-- All matches of a pattern from a place on. -/
def matchesFrom (p : Pattern γ) (t : Text) (offset : Nat) : List (Match γ) :=
  (ofPattern p t).allFrom (t.length + 1 - offset) offset

/-- Places without a match are passed over. -/
theorem matchesFrom_eq_of_forall {offset offset' : Nat} (hle : offset ≤ offset')
    (hlen : offset' ≤ t.length) (h : ∀ i, offset ≤ i → i < offset' → p.matchAt? t i = none) :
    matchesFrom p t offset = matchesFrom p t offset' := by
  have hbound : matchesFrom p t offset' =
      (ofPattern p t).allFrom (t.length + 1 - offset) offset' :=
    allFrom_eq_of_le (by omega) (by omega)
  obtain ⟨bound, hb⟩ : ∃ bound, t.length + 1 - offset = bound + 1 := ⟨t.length - offset, by omega⟩
  rw [hbound, matchesFrom, hb, allFrom, allFrom, find?_eq_of_forall hle h]

/-- A match at the place is the first one, and the others come from its end on. -/
theorem matchesFrom_eq_cons {offset : Nat} {m : Match γ} (hlen : offset ≤ t.length)
    (h : p.matchAt? t offset = some m) (hlt : m.start < m.stop) :
    matchesFrom p t offset = m :: matchesFrom p t m.stop := by
  have hfind := find?_of_matchAt? hlen h
  have hle := start_le_of_find? hfind
  obtain ⟨bound, hb⟩ : ∃ bound, t.length + 1 - offset = bound + 1 := ⟨t.length - offset, by omega⟩
  rw [matchesFrom, hb, allFrom, hfind]
  simp only [hlt, if_true]
  congr 1
  exact allFrom_eq_of_le (by omega) (by omega)

theorem matchesFrom_eq_nil {offset : Nat}
    (h : ∀ i, offset ≤ i → i ≤ t.length → p.matchAt? t i = none) : matchesFrom p t offset = [] := by
  rw [matchesFrom]
  cases t.length + 1 - offset with
  | zero => rfl
  | succ bound => rw [allFrom, find?_eq_none_iff.2 h]

end Finder

end Glossator

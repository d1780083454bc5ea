import Mathlib
import Glossator.Java.Source

/-!
# Comments and literals

The scanner that collects the comments of a text passes over its string and character literals.
This module names both as regions of the text, and says with which characters they begin and end.

* `Java.comments_eq_map_regions`: the comments of a text are those of its regions.
* `Java.inComment_iff`: the test for comments finds every offset in one.
* `Java.contains_of_run`, `Java.contains_start_of_run`: a region that holds one end of a run of
  plain characters holds the other end.
-/

set_option autoImplicit false

namespace Glossator.Java

/-- A comment or a literal of a text. -/
structure Region where
  isComment : Bool
  span : Span

/-- The comments and literals of the end of a text that is `total` characters long, in order. A
literal that a newline ends goes up to and including the newline. -/
def regionsFrom (total : Nat) : Text → List Region
  | [] => []
  | '/' :: '/' :: rest =>
    ⟨true, ⟨total - (rest.length + 2), total - (rest.dropWhile (· ≠ '\n')).length⟩⟩ ::
      regionsFrom total (rest.dropWhile (· ≠ '\n'))
  | '/' :: '*' :: rest =>
    ⟨true, ⟨total - (rest.length + 2), total - (afterBlockComment rest).length⟩⟩ ::
      regionsFrom total (afterBlockComment rest)
  | c :: rest =>
    if c = '"' || c = '\'' then
      ⟨false, ⟨total - (rest.length + 1), total - (afterLiteral c rest).length⟩⟩ ::
        regionsFrom total (afterLiteral c rest)
    else regionsFrom total rest
termination_by t => t.length
decreasing_by
  · have := length_dropWhile_le (· ≠ '\n') rest
    simp only [List.length_cons]
    omega
  · have := length_afterBlockComment_le rest
    simp only [List.length_cons]
    omega
  · have := length_afterLiteral_le c rest
    simp only [List.length_cons]
    omega
  · simp only [List.length_cons]
    omega

/-- The comments and literals of a text, in order. -/
def regions (t : Text) : List Region := regionsFrom t.length t

theorem comments_eq_map_regions (t : Text) :
    comments t = ((regions t).filter Region.isComment).map Region.span := by
  rw [comments, regions]
  generalize t.length = total
  fun_induction regionsFrom total t with
  | case1 => rw [commentsFrom]; rfl
  | case2 rest ih => rw [commentsFrom, ih]; rfl
  | case3 rest ih => rw [commentsFrom, ih]; rfl
  | case4 c rest hline hblock hquote ih =>
    rw [commentsFrom, if_pos hquote, ih]
    · rfl
    · exact hline
    · exact hblock
  | case5 c rest hline hblock hquote ih =>
    rw [commentsFrom, if_neg hquote, ih]
    · exact hline
    · exact hblock

/-! ### The ends of regions -/

theorem eq_append_afterBlockComment (u : Text) : ∃ read, u = read ++ afterBlockComment u ∧
    (afterBlockComment u ≠ [] → read.getLast? = some '/') := by
  fun_induction afterBlockComment u with
  | case1 => exact ⟨[], rfl, by simp⟩
  | case2 rest => exact ⟨['*', '/'], rfl, by simp⟩
  | case3 c rest _ ih =>
    obtain ⟨read, heq, hlast⟩ := ih
    refine ⟨c :: read, by rw [List.cons_append, ← heq], ?_⟩
    intro hne
    rw [List.getLast?_cons, hlast hne]
    rfl

theorem eq_append_afterLiteral (quote : Char) (u : Text) :
    ∃ read, u = read ++ afterLiteral quote u ∧
      (afterLiteral quote u ≠ [] → read.getLast? = some quote ∨ read.getLast? = some '\n') := by
  fun_induction afterLiteral quote u with
  | case1 => exact ⟨[], rfl, by simp⟩
  | case2 => exact ⟨['\\'], rfl, by simp⟩
  | case3 c rest ih =>
    obtain ⟨read, heq, hlast⟩ := ih
    refine ⟨'\\' :: c :: read, by rw [List.cons_append, List.cons_append, ← heq], ?_⟩
    intro hne
    rcases hlast hne with h | h <;> simp [h, List.getLast?_cons]
  | case4 c rest hescape _ hend =>
    refine ⟨[c], rfl, fun _ => ?_⟩
    simpa using hend
  | case5 c rest hescape _ hend ih =>
    obtain ⟨read, heq, hlast⟩ := ih
    refine ⟨c :: read, by rw [List.cons_append, ← heq], ?_⟩
    intro hne
    rcases hlast hne with h | h <;> simp [h, List.getLast?_cons]

/-- The characters that open a comment or a literal. -/
def regionOpeners : List Char := ['/', '"', '\'']

/-- The characters that stand at the end of a comment or a literal. -/
def regionClosers : List Char := ['/', '"', '\'', '\n']

/-- Where a region of a text lies: it begins with an opener, and it ends behind a closer or before a
newline, unless it ends with the text. -/
structure RegionOf (t : Text) (r : Region) : Prop where
  start_lt : r.span.start < r.span.stop
  opener : ∃ c ∈ regionOpeners, t[r.span.start]? = some c
  closer : ∀ c d, t[r.span.stop - 1]? = some c → t[r.span.stop]? = some d →
    c ∈ regionClosers ∨ d = '\n'

/-- The piece that a region reads ends with a closer, or a newline follows it. -/
def EndsRegion (read after : Text) : Prop :=
  ∀ c d, read.getLast? = some c → after.head? = some d → c ∈ regionClosers ∨ d = '\n'

/-- A region that reads a piece behind an opener lies where regions lie. -/
theorem RegionOf.of_append {before read after : Text} {c : Char} {isComment : Bool}
    (hopener : c ∈ regionOpeners) (hends : EndsRegion (c :: read) after) :
    RegionOf (before ++ (c :: read ++ after))
      ⟨isComment, ⟨before.length, before.length + (c :: read).length⟩⟩ := by
  refine ⟨by simp, ⟨c, hopener, by simp⟩, ?_⟩
  intro d e hd he
  refine hends d e ?_ ?_
  · rw [List.getLast?_eq_getElem?, ← hd]
    have hindex : before.length + (c :: read).length - 1 = before.length + read.length := by simp
    simp only [hindex]
    rw [List.getElem?_append_right (by omega), Nat.add_sub_cancel_left,
      List.getElem?_append_left (by simp)]
    rfl
  · rw [List.head?_eq_getElem?, ← he]
    simp [List.getElem?_append_right]

/-- The regions of the end of a text lie behind what comes before it. -/
theorem of_mem_regionsFrom {total : Nat} {u : Text} {r : Region} : ∀ {before : Text},
    r ∈ regionsFrom total u → total = before.length + u.length →
      RegionOf (before ++ u) r ∧ before.length ≤ r.span.start := by
  -- a region that is read first, or one of the regions behind it
  have hstep {c : Char} {read after u before : Text} {first : Region}
      (ih : ∀ {before : Text}, r ∈ regionsFrom total after →
        total = before.length + after.length →
        RegionOf (before ++ after) r ∧ before.length ≤ r.span.start)
      (hu : u = c :: read ++ after) (htotal : total = before.length + u.length)
      (hopener : c ∈ regionOpeners) (hends : EndsRegion (c :: read) after)
      (hfirst : first.span = ⟨total - u.length, total - after.length⟩)
      (h : r ∈ first :: regionsFrom total after) :
      RegionOf (before ++ u) r ∧ before.length ≤ r.span.start := by
    have hlength := congrArg List.length hu
    rw [List.length_append] at hlength
    rcases List.mem_cons.1 h with rfl | h
    · have hspan : r.span = ⟨before.length, before.length + (c :: read).length⟩ := by
        rw [hfirst, htotal]
        congr 1 <;> omega
      obtain ⟨isComment, span⟩ := r
      obtain rfl : span = _ := hspan
      rw [hu]
      exact ⟨.of_append hopener hends, le_rfl⟩
    · obtain ⟨hr, hle⟩ := @ih (before ++ (c :: read)) h
        (by rw [List.length_append]; omega)
      rw [hu, ← List.append_assoc]
      rw [List.length_append] at hle
      exact ⟨hr, by omega⟩
  fun_induction regionsFrom total u with
  | case1 =>
    intro before h
    cases h
  | case2 rest ih =>
    intro before h htotal
    have hread := List.takeWhile_append_dropWhile (p := (· ≠ '\n')) (l := rest)
    have hnot := List.head?_dropWhile_not (· ≠ '\n') rest
    have hu : '/' :: '/' :: rest = '/' :: ('/' :: rest.takeWhile (· ≠ '\n')) ++
        rest.dropWhile (· ≠ '\n') := by
      rw [List.cons_append, List.cons_append, hread]
    refine hstep ih hu htotal (by simp [regionOpeners]) ?_ rfl h
    intro _ d _ hd
    rw [hd] at hnot
    exact .inr (by simpa using hnot)
  | case3 rest ih =>
    intro before h htotal
    obtain ⟨read, hread, hlast⟩ := eq_append_afterBlockComment rest
    have hu : '/' :: '*' :: rest = '/' :: ('*' :: read) ++ afterBlockComment rest := by
      rw [List.cons_append, List.cons_append, ← hread]
    refine hstep ih hu htotal (by simp [regionOpeners]) ?_ rfl h
    intro c d hc hd
    have hslash := hlast (List.ne_nil_of_mem (List.mem_of_mem_head? hd))
    rw [List.getLast?_cons_cons, List.getLast?_cons, hslash] at hc
    obtain rfl : '/' = c := by simpa using hc
    exact .inl (by simp [regionClosers])
  | case4 c rest hline hblock hquote ih =>
    intro before h htotal
    obtain ⟨read, hread, hlast⟩ := eq_append_afterLiteral c rest
    have hquote' : c = '"' ∨ c = '\'' := by simpa using hquote
    have hu : c :: rest = c :: read ++ afterLiteral c rest := by
      rw [List.cons_append, ← hread]
    refine hstep ih hu htotal ?_ ?_ rfl h
    · rcases hquote' with rfl | rfl <;> simp [regionOpeners]
    · intro d e hd he
      rw [List.getLast?_cons] at hd
      rcases hlast (List.ne_nil_of_mem (List.mem_of_mem_head? he)) with hend | hend
      · rw [hend] at hd
        obtain rfl : c = d := by simpa using hd
        rcases hquote' with rfl | rfl <;> simp [regionClosers]
      · rw [hend] at hd
        obtain rfl : '\n' = d := by simpa using hd
        simp [regionClosers]
  | case5 c rest hline hblock hquote ih =>
    intro before h htotal
    rw [List.length_cons] at htotal
    have hlength : (before ++ [c]).length = before.length + 1 := by simp
    obtain ⟨hr, hle⟩ := @ih (before ++ [c]) h (by omega)
    rw [List.append_assoc, List.singleton_append] at hr
    exact ⟨hr, by omega⟩

theorem RegionOf.of_mem {t : Text} {r : Region} (h : r ∈ regions t) : RegionOf t r :=
  (@of_mem_regionsFrom _ _ _ [] h (by simp)).1

/-- The regions of the end of a text lie one behind the other. -/
theorem pairwise_regionsFrom {total : Nat} {u : Text} (hu : u.length ≤ total) :
    (regionsFrom total u).Pairwise fun r r' => r.span.stop ≤ r'.span.start := by
  -- what is read later starts where the first region ends
  have hstep {after : Text} {first : Region} (hle : after.length ≤ total)
      (hfirst : first.span.stop = total - after.length)
      (ih : (regionsFrom total after).Pairwise fun r r' => r.span.stop ≤ r'.span.start) :
      (first :: regionsFrom total after).Pairwise fun r r' => r.span.stop ≤ r'.span.start := by
    refine .cons ?_ ih
    intro r hr
    have hbehind := (@of_mem_regionsFrom _ _ _ (List.replicate (total - after.length) ' ') hr
      (by rw [List.length_replicate]; omega)).2
    rw [List.length_replicate] at hbehind
    omega
  fun_induction regionsFrom total u with
  | case1 => exact .nil
  | case2 rest ih =>
    have hle := length_dropWhile_le (· ≠ '\n') rest
    simp only [List.length_cons] at hu
    exact hstep (by omega) rfl (ih (by omega))
  | case3 rest ih =>
    have hle := length_afterBlockComment_le rest
    simp only [List.length_cons] at hu
    exact hstep (by omega) rfl (ih (by omega))
  | case4 c rest hline hblock hquote ih =>
    have hle := length_afterLiteral_le c rest
    simp only [List.length_cons] at hu
    exact hstep (by omega) rfl (ih (by omega))
  | case5 c rest hline hblock hquote ih =>
    simp only [List.length_cons] at hu
    exact ih (by omega)

/-! ### Offsets in regions -/

/-- Of spans that lie one behind the other, the first that ends behind an offset decides whether one
of them holds it. -/
theorem inComment_eq_any {spans : List Span} (h : spans.Pairwise fun s s' => s.stop ≤ s'.start)
    (offset : Nat) : inComment spans offset = spans.any (·.contains offset) := by
  induction spans with
  | nil => rfl
  | cons s spans ih =>
    obtain ⟨hfirst, hrest⟩ := List.pairwise_cons.1 h
    rw [List.any_cons, ← ih hrest, inComment, List.find?_cons, inComment]
    by_cases hlt : offset < s.stop
    · -- the spans behind this one start later
      have hnone : spans.any (·.contains offset) = false := by
        rw [List.any_eq_false]
        intro s' hs'
        have := hfirst s' hs'
        simp only [Span.contains, Bool.and_eq_true, decide_eq_true_eq]
        omega
      rw [← ih hrest, inComment] at hnone
      simp [hlt, hnone]
    · have hnot : s.contains offset = false := by
        simp only [Span.contains, Bool.and_eq_false_iff, decide_eq_false_iff_not]
        omega
      simp [hlt, hnot]

theorem inComment_iff {t : Text} {offset : Nat} : inComment (comments t) offset = true ↔
    ∃ r ∈ regions t, r.isComment = true ∧ r.span.contains offset = true := by
  have hpairwise : (comments t).Pairwise fun s s' => s.stop ≤ s'.start := by
    rw [comments_eq_map_regions, List.pairwise_map]
    exact (pairwise_regionsFrom le_rfl).sublist List.filter_sublist
  rw [inComment_eq_any hpairwise, comments_eq_map_regions]
  simp

/-- A region that holds the start of a run of plain characters holds its end. -/
theorem contains_of_run {t : Text} {r : Region} (hr : RegionOf t r) {i j : Nat} (hij : i ≤ j)
    (hi : r.span.contains i = true)
    (hrun : ∀ k, i ≤ k → k ≤ j → ∃ c, t[k]? = some c ∧ c ∉ regionClosers) :
    r.span.contains j = true := by
  induction j, hij using Nat.le_induction with
  | base => exact hi
  | succ j hij ih =>
    have hj := ih fun k hik hkj => hrun k hik (by omega)
    rw [Span.contains_iff] at hj ⊢
    refine ⟨by omega, ?_⟩
    by_contra hstop
    have heq : r.span.stop = j + 1 := by omega
    obtain ⟨c, hc, hplain⟩ := hrun j hij (by omega)
    obtain ⟨d, hd, hplain'⟩ := hrun (j + 1) (by omega) le_rfl
    rcases hr.closer c d (by rw [heq]; exact hc) (by rw [heq]; exact hd) with hclose | rfl
    · exact hplain hclose
    · exact hplain' (by simp [regionClosers])

/-- A region that holds the end of a run of characters that open nothing holds its start. -/
theorem contains_start_of_run {t : Text} {r : Region} (hr : RegionOf t r) {i j : Nat} (hij : i ≤ j)
    (hj : r.span.contains j = true)
    (hrun : ∀ k, i < k → k ≤ j → ∀ c, t[k]? = some c → c ∉ regionOpeners) :
    r.span.contains i = true := by
  obtain ⟨c, hopener, hc⟩ := hr.opener
  rw [Span.contains_iff] at hj ⊢
  refine ⟨?_, by omega⟩
  by_contra hlt
  exact hrun r.span.start (by omega) hj.1 c hc hopener

end Glossator.Java

import Glossator.Proofs.Java.Method
import Glossator.Proofs.Java.ReadMethod

/-!
# The methods of class trees

The search for methods in the body of a class finds each method of the class itself. A method of a
nested class is found too, but it starts within the extent of that class and is passed over.

* `Java.methodsAfter_masked`: nothing is taken from the members of a nested class.
* `Java.records_members`: the records of the methods of a class itself.
-/

set_option autoImplicit false

namespace Glossator.Java

/-- What the search knows of a method that it finds in a line behind a text. -/
structure FindsMethod (t : Text) (layout : Layout) (depth : Nat) (before : Text)
    (m : MethodDeclaration) (h : Match HeaderPart) : Prop where
  find : (Finder.ofPattern methodHeader t).find? before.length = some h
  le_start : before.length ≤ h.start
  start_le : h.start ≤ (before ++ layout.newLine depth).length
  stop : h.stop = (before ++ layout.newLine depth ++ m.header).length + 1
  reads : ReadsMethod t m h
  extent : extent? t h = some (methodExtent (before ++ ['\n']) (layout.indent depth) m)

section

variable {t : Text} {layout : Layout} {depth : Nat} {before rest : Text} {m : MethodDeclaration}

/-- At the start of a text, the header of a method takes in the newline before it. -/
theorem findsMethod_start (hchars : ∀ c ∈ t, isTreeChar c = true)
    (ht : t = layout.newLine depth ++ m.text ++ rest) :
    FindsMethod t layout depth [] m (methodMatch [] [] (layout.newLine depth) m) := by
  have hgap := layout.isBlank_newLine depth
  have hlist : t = [] ++ [] ++ layout.newLine depth ++ m.text ++ rest := ht
  have hnewline : ∀ c ∈ (layout.newLine depth).head?, c = '\n' :=
    fun c hc => (Option.some.inj hc).symm
  have hmatch := methodHeader_matchAt? hchars hlist (.inl rfl) (List.forall_mem_nil _) hgap hnewline
  refine ⟨Finder.find?_of_matchAt? (Nat.zero_le _) hmatch, le_rfl, Nat.zero_le _, ?_,
    .of_methodMatch hlist hgap,
    extent?_methodMatch hlist (List.nil_append _) (.inr rfl) (layout.indent_blank depth)⟩
  rw [stop_methodMatch]
  simp

/-- Behind something else in its line before, the header of a method starts with its own line. -/
theorem findsMethod_behind {front : Text} {z : Char} (hchars : ∀ c ∈ t, isTreeChar c = true)
    (ht : t = front ++ [z] ++ (layout.newLine depth ++ m.text) ++ rest) (hz : z ≠ '\n') :
    FindsMethod t layout depth (front ++ [z]) m
      (methodMatch (front ++ [z] ++ ['\n']) (layout.indent depth) [] m) := by
  have hindent := layout.indent_blank depth
  have hlist : t = (front ++ [z] ++ ['\n']) ++ layout.indent depth ++ [] ++ m.text ++ rest := by
    simp [ht, Layout.newLine]
  have hmatch := methodHeader_matchAt? hchars hlist (.inr List.getLast?_concat) hindent
    (List.forall_mem_nil _) (by simp)
  have hnone : methodHeader.matchAt? t (front ++ [z]).length = none := by
    rw [List.append_assoc] at ht
    rw [ht] at hchars ⊢
    exact methodHeader_matchAt?_eq_none_of_previous hchars List.getLast?_concat hz
  have hsame : (Finder.ofPattern methodHeader t).find? (front ++ [z]).length =
      (Finder.ofPattern methodHeader t).find? (front ++ [z] ++ ['\n']).length := by
    refine Finder.find?_eq_of_forall (by simp) ?_
    intro i hle hlt
    have hi : i = (front ++ [z]).length := by
      simp only [List.length_append, List.length_singleton] at hle hlt ⊢
      omega
    rw [hi, hnone]
  have hextent := extent?_methodMatch hlist (List.append_nil _) (.inl rfl) hindent
  rw [List.append_nil] at hextent
  refine ⟨?_, ?_, ?_, ?_, .of_methodMatch hlist (List.forall_mem_nil _), hextent⟩
  · rw [hsame]
    exact Finder.find?_of_matchAt? (by simp [hlist]) hmatch
  · simp [methodMatch]
  · simp [methodMatch, Layout.newLine]
  · rw [stop_methodMatch]
    simp [Layout.newLine]

/-- A method is found where it stands. -/
theorem exists_findsMethod (hchars : ∀ c ∈ t, isTreeChar c = true)
    (ht : t = before ++ (layout.newLine depth ++ m.text) ++ rest)
    (hlast : ∀ c ∈ before.getLast?, c ≠ '\n') :
    ∃ h, FindsMethod t layout depth before m h := by
  rcases List.eq_nil_or_concat' before with rfl | ⟨front, z, rfl⟩
  · exact ⟨_, findsMethod_start hchars ht⟩
  · exact ⟨_, findsMethod_behind hchars ht (hlast z List.getLast?_concat)⟩

end

section

variable {src : Source} {scope : Option Scope} {s : Stretch} {types : List Span} {layout : Layout}
  {depth : Nat} {before rest : Text}

/-- No method starts in a piece without parentheses that ends with a brace. -/
theorem methodsAfter_passed (ht : ∀ c ∈ s.text, isTreeChar c = true) {piece : Text}
    (hs : s.text = before ++ piece ++ rest) (hpiece : '(' ∉ piece) {z : Char}
    (hz : piece.getLast? = some z) (hbrace : z = '{' ∨ z = '}') :
    methodsAfter src scope s types before.length =
      methodsAfter src scope s types (before ++ piece).length := by
  have hword : isWord z = false := by rcases hbrace with rfl | rfl <;> decide
  have hblank : isBlank z = false := by rcases hbrace with rfl | rfl <;> decide
  have hcomma : z ≠ ',' := by rcases hbrace with rfl | rfl <;> decide
  refine methodsAfter_eq_of_forall (by simp) (by simp [hs]) ?_
  intro i hle hlt
  rw [hs] at ht ⊢
  exact methodHeader_matchAt?_eq_none ht hpiece hz hword hblank hcomma hle hlt

theorem not_mem_of_isBlank {gap : Text} (hgap : ∀ c ∈ gap, isBlank c = true) : '(' ∉ gap := by
  intro hmem
  exact absurd (hgap '(' hmem) (by decide)

theorem not_mem_classOpening {gap : Text} (hgap : ∀ c ∈ gap, isBlank c = true) (name : Identifier) :
    '(' ∉ classOpening gap name := by
  have hclass : '(' ∉ "class ".toList := by decide
  have hname : '(' ∉ name.text := by
    intro hmem
    exact absurd (name.plainWord.isWord '(' hmem) (by decide)
  simp only [classOpening, classHeader, List.mem_append, not_or]
  exact ⟨⟨not_mem_of_isBlank hgap, hclass, hname⟩, by decide⟩

theorem MethodDeclaration.not_mem_body (m : MethodDeclaration) : '(' ∉ m.body.text ++ ['}'] := by
  intro hmem
  rcases List.mem_append.1 hmem with h | h
  · exact absurd (m.body.chars '(' h) (by decide)
  · exact absurd h (by decide)

/-- The search passes over the start of a nested class. -/
theorem methodsAfter_classOpening (ht : ∀ c ∈ s.text, isTreeChar c = true) {name : Identifier}
    (hs : s.text = before ++ classOpening (layout.newLine depth) name ++ rest) :
    methodsAfter src scope s types before.length = methodsAfter src scope s types
      (before ++ classOpening (layout.newLine depth) name).length := by
  have hlast : (classOpening (layout.newLine depth) name).getLast? = some '{' := by
    simp [classOpening, List.getLast?_append]
  exact methodsAfter_passed ht hs (not_mem_classOpening (layout.isBlank_newLine depth) name) hlast
    (.inl rfl)

/-- The search passes over the line that ends a nested class. -/
theorem methodsAfter_closing (ht : ∀ c ∈ s.text, isTreeChar c = true)
    (hs : s.text = before ++ (layout.newLine depth ++ ['}']) ++ rest) :
    methodsAfter src scope s types before.length =
      methodsAfter src scope s types (before ++ (layout.newLine depth ++ ['}'])).length := by
  refine methodsAfter_passed ht hs ?_ List.getLast?_concat (.inr rfl)
  intro hmem
  rcases List.mem_append.1 hmem with h | h
  · exact not_mem_of_isBlank (layout.isBlank_newLine depth) h
  · exact absurd h (by decide)

theorem methodsAfter_body (ht : ∀ c ∈ s.text, isTreeChar c = true) {m : MethodDeclaration}
    (hs : s.text = before ++ (layout.newLine depth ++ m.text) ++ rest) :
    methodsAfter src scope s types ((before ++ layout.newLine depth ++ m.header).length + 1) =
      methodsAfter src scope s types (before ++ (layout.newLine depth ++ m.text)).length := by
  have hlist : s.text = (before ++ layout.newLine depth ++ m.header ++ ['{']) ++
      (m.body.text ++ ['}']) ++ rest := by
    simp [hs, MethodDeclaration.text, MethodDeclaration.block]
  have hpassed : methodsAfter src scope s types _ = _ :=
    methodsAfter_passed ht hlist m.not_mem_body List.getLast?_concat (.inr rfl)
  have hend : before ++ layout.newLine depth ++ m.header ++ ['{'] ++ (m.body.text ++ ['}']) =
      before ++ (layout.newLine depth ++ m.text) := by
    simp [MethodDeclaration.text, MethodDeclaration.block]
  rwa [hend, List.length_append, List.length_singleton] at hpassed

theorem ne_newline_of_getLast? {t : Text} {z : Char} (h : t.getLast? = some z) (hz : z ≠ '\n') :
    ∀ c ∈ t.getLast?, c ≠ '\n' := by
  intro c hc
  obtain rfl : z = c := Option.some.inj (h.symm.trans hc)
  exact hz

theorem MethodDeclaration.ne_newline_text (m : MethodDeclaration) (before gap : Text) :
    ∀ c ∈ (before ++ (gap ++ m.text)).getLast?, c ≠ '\n' := by
  rw [← List.append_assoc]
  exact ne_newline_of_getLast? (m.getLast?_text _) (by decide)

theorem ne_newline_classOpening (before gap : Text) (name : Identifier) :
    ∀ c ∈ (before ++ classOpening gap name).getLast?, c ≠ '\n' := by
  have hlast : (before ++ classOpening gap name).getLast? = some '{' := by
    simp [classOpening, List.getLast?_append]
  exact ne_newline_of_getLast? hlast (by decide)

theorem ne_newline_classText (before gap : Text) (name : Identifier) (inside : Text) :
    ∀ c ∈ (before ++ classText gap name inside).getLast?, c ≠ '\n' := by
  have hlast : (before ++ classText gap name inside).getLast? = some '}' := by
    simp [classText, List.getLast?_append]
  exact ne_newline_of_getLast? hlast (by decide)

/-- Nothing is taken from members that lie within the extent of a type. -/
theorem methodsAfter_masked (ht : ∀ c ∈ s.text, isTreeChar c = true) (ms : Members)
    (hs : s.text = before ++ ms.text layout depth ++ rest) (hlast : ∀ c ∈ before.getLast?, c ≠ '\n')
    {mask : Span} (hmem : mask ∈ types) (hstart : mask.start ≤ before.length)
    (hstop : (before ++ ms.text layout depth).length ≤ mask.stop) :
    methodsAfter src scope s types before.length =
      methodsAfter src scope s types (before ++ ms.text layout depth).length := by
  induction ms generalizing depth before rest with
  | none => rw [Members.text, List.append_nil]
  | method m ms ih =>
    obtain ⟨hmethod, hrest⟩ := Members.text_method hs
    obtain ⟨h, hfound⟩ := exists_findsMethod ht hmethod hlast
    -- the method starts within the mask
    have hmasked : isOwnMethod src scope s types h = false := by
      have hcontains : mask.contains h.start = true := by
        have hle := hfound.le_start
        have hlt := hfound.start_le
        refine Span.contains_iff.2 ⟨hstart.trans hle, ?_⟩
        simp only [Members.text, MethodDeclaration.text, MethodDeclaration.block,
          List.length_append, List.length_cons] at hlt hstop
        omega
      have hany : types.any (·.contains h.start) = true :=
        List.any_eq_true.2 ⟨mask, hmem, hcontains⟩
      simp [isOwnMethod, hany]
    have hlist := Members.append_text_method layout depth before m ms
    rw [methodsAfter_of_not_own hfound.find hmasked, hfound.stop, methodsAfter_body ht hmethod,
      ih hrest (m.ne_newline_text _ _) (hstart.trans (by simp)) (by rwa [hlist]), hlist]
  | type name members ms ihMembers ih =>
    obtain ⟨-, hmembers, hend, hrest⟩ := Members.text_type hs
    have hopening := hmembers
    rw [List.append_assoc _ (members.text layout (depth + 1))] at hopening
    have hlist := Members.append_text_type layout depth before name members ms
    have hinner : (before ++ classOpening (layout.newLine depth) name ++
        members.text layout (depth + 1)).length ≤ mask.stop := by
      refine (members.length_le_classText layout depth before name).trans (le_trans ?_ hstop)
      rw [← hlist]
      simp
    rw [methodsAfter_classOpening ht hopening,
      ihMembers hmembers (ne_newline_classOpening _ _ _) (hstart.trans (by simp)) hinner,
      methodsAfter_closing ht hend, classText_members,
      ih hrest (ne_newline_classText _ _ _ _) (hstart.trans (by simp)) (by rwa [hlist]), hlist]

end

/-! ### The class itself -/

/-- Of the members that stand behind a text, some spans cover just what their types cover. -/
structure CoversTypes (types : List Span) (layout : Layout) (depth : Nat) (before : Text)
    (ms : Members) : Prop where
  extent_mem : ∀ d ∈ ms.declarations layout depth before, d.extent ∈ types
  exists_of_contains : ∀ span ∈ types, ∀ i, before.length ≤ i →
    i < (before ++ ms.text layout depth).length → span.contains i = true →
      ∃ d ∈ ms.declarations layout depth before, d.extent.contains i = true

namespace CoversTypes

variable {types : List Span} {layout : Layout} {depth : Nat} {before : Text} {m : MethodDeclaration}
  {name : Identifier} {members ms : Members}

theorem ofDeclarations (layout : Layout) (depth : Nat) (before : Text) (ms : Members) :
    CoversTypes ((ms.declarations layout depth before).map TypeDeclaration.extent) layout depth
      before ms := by
  refine ⟨fun d hd => List.mem_map_of_mem hd, ?_⟩
  intro span hspan i _ _ hcontains
  obtain ⟨d, hd, rfl⟩ := List.mem_map.1 hspan
  exact ⟨d, hd, hcontains⟩

theorem method_rest (h : CoversTypes types layout depth before (.method m ms)) :
    CoversTypes types layout depth (before ++ (layout.newLine depth ++ m.text)) ms := by
  refine ⟨h.extent_mem, ?_⟩
  intro span hspan i hle hlt hcontains
  refine h.exists_of_contains span hspan i ?_ ?_ hcontains
  · rw [List.length_append] at hle
    omega
  · simpa [Members.text] using hlt

theorem not_contains (h : CoversTypes types layout depth before (.method m ms)) {i : Nat}
    (hle : before.length ≤ i) (hlt : i < (before ++ (layout.newLine depth ++ m.text)).length) :
    types.any (·.contains i) = false := by
  rw [List.any_eq_false]
  intro span hspan hcontains
  have hend : i < (before ++ (Members.method m ms).text layout depth).length := by
    refine hlt.trans_le ?_
    simp [Members.text]
  obtain ⟨d, hd, hin⟩ := h.exists_of_contains span hspan i hle hend hcontains
  have hstart := (ms.extent_of_mem hd).1
  have hge := (Span.contains_iff.1 hin).1
  omega

theorem extent_class_mem (h : CoversTypes types layout depth before (.type name members ms)) :
    (⟨before.length, (before ++ classText (layout.newLine depth) name
      (members.inside layout depth)).length⟩ : Span) ∈ types :=
  h.extent_mem _ List.mem_cons_self

theorem type_rest (h : CoversTypes types layout depth before (.type name members ms)) :
    CoversTypes types layout depth (before ++ classText (layout.newLine depth) name
      (members.inside layout depth)) ms := by
  constructor
  · intro d hd
    exact h.extent_mem d (List.mem_cons_of_mem _ (List.mem_append_right _ hd))
  · intro span hspan i hle hlt hcontains
    obtain ⟨d, hd, hin⟩ := h.exists_of_contains span hspan i
      (by rw [List.length_append] at hle; omega)
      (by simpa [Members.text, Members.inside] using hlt) hcontains
    have hstop := (Span.contains_iff.1 hin).2
    rcases List.mem_cons.1 hd with rfl | hd
    · -- the class itself ends before the other members
      exact absurd hstop (Nat.not_lt.2 hle)
    · rcases List.mem_append.1 hd with hd | hd
      · have hinner := (members.extent_of_mem hd).2.1
        have hclass := members.length_le_classText layout depth before name
        omega
      · exact ⟨d, hd, hin⟩

end CoversTypes

section

variable {src : Source} {owner : Owner} {s : Stretch} {types : List Span} {layout : Layout}
  {depth : Nat} {start behind before rest : Text}

/-- The search finds the methods of a class itself one after another, and takes none from the
classes nested in it. -/
theorem records_methodsAfter (ht : ∀ c ∈ s.text, isTreeChar c = true)
    (hcomments : src.comments = []) (hpackage : src.package = owner.package)
    (hstart : s.start = start.length) (hsrc : src.text = start ++ s.text ++ behind) (ms : Members)
    (hs : s.text = before ++ ms.text layout depth ++ rest) (hlast : ∀ c ∈ before.getLast?, c ≠ '\n')
    (htypes : CoversTypes types layout depth before ms) :
    (methodsAfter src (some owner.scope) s types before.length).map
        (Method.record src (some owner.scope) s) =
      ms.ownRecords layout owner depth (start ++ before) ++
        (methodsAfter src (some owner.scope) s types (before ++ ms.text layout depth).length).map
          (Method.record src (some owner.scope) s) := by
  induction ms generalizing depth before rest with
  | none => simp [Members.text, Members.ownRecords]
  | method m ms ih =>
    obtain ⟨hmethod, hrest⟩ := Members.text_method hs
    obtain ⟨h, hfound⟩ := exists_findsMethod ht hmethod hlast
    have hown : isOwnMethod src (some owner.scope) s types h = true := by
      have hlt : h.start < (before ++ (layout.newLine depth ++ m.text)).length := by
        have hle := hfound.start_le
        simp only [MethodDeclaration.text, MethodDeclaration.block, List.length_append,
          List.length_cons] at hle ⊢
        omega
      simp [isOwnMethod, Source.isComment_eq_false hcomments,
        htypes.not_contains hfound.le_start hlt, hfound.reads.isDeclaration]
    have hline : before ++ ['\n'] ++ layout.indent depth = before ++ layout.newLine depth := by
      simp [Layout.newLine]
    have hlist : s.text = before ++ ['\n'] ++ layout.indent depth ++ m.text ++
        (ms.text layout depth ++ rest) := by rw [hline, hmethod]; simp
    have hrecord := hfound.reads.record hlist hstart hsrc hpackage
    have hstop : (methodExtent (before ++ ['\n']) (layout.indent depth) m).stop =
        (before ++ (layout.newLine depth ++ m.text)).length := by
      rw [← List.append_assoc before, ← hline]
      rfl
    rw [methodsAfter_of_own hfound.find hown hfound.extent, List.map_cons, hrecord, hstop,
      ih hrest (m.ne_newline_text _ _) htypes.method_rest, Members.ownRecords]
    simp [Members.text, Layout.newLine]
  | type name members ms ihMembers ih =>
    obtain ⟨-, hmembers, hend, hrest⟩ := Members.text_type hs
    have hopening := hmembers
    rw [List.append_assoc _ (members.text layout (depth + 1))] at hopening
    rw [methodsAfter_classOpening ht hopening,
      methodsAfter_masked ht members hmembers (ne_newline_classOpening _ _ _)
        htypes.extent_class_mem (by simp) (members.length_le_classText layout depth before name),
      methodsAfter_closing ht hend, classText_members,
      ih hrest (ne_newline_classText _ _ _ _) htypes.type_rest, Members.ownRecords,
      Members.append_text_type, List.append_assoc start]

/-- The records of the methods found in the body of a class are those of the methods of the class
itself. -/
theorem records_members (hcomments : src.comments = []) (hpackage : src.package = owner.package)
    (hstart : s.start = start.length) (hsrc : src.text = start ++ s.text ++ behind) (ms : Members)
    (hs : s.text = ms.inside layout depth) :
    (methods src (some owner.scope) s).map (Method.record src (some owner.scope) s) =
      ms.ownRecords layout owner (depth + 1) start := by
  have ht : ∀ c ∈ s.text, isTreeChar c = true := by
    rw [hs]
    exact ms.isTreeChar_inside layout depth
  have htypes : typeDeclarations src s = ms.declarations layout (depth + 1) [] :=
    typeDeclarations_members ht hcomments ms hs (layout.isBlank_newLine depth)
  have hrecords := records_methodsAfter ht hcomments hpackage hstart hsrc ms hs (by simp)
    (.ofDeclarations layout (depth + 1) [] ms)
  have hend : methodsAfter src (some owner.scope) s
      ((ms.declarations layout (depth + 1) []).map TypeDeclaration.extent)
      ([] ++ ms.text layout (depth + 1)).length = [] := by
    refine methodsAfter_eq_nil fun i hle hlen => ?_
    refine methodHeader_matchAt?_eq_none_of_drop ht ?_ hle hlen
    rw [hs, Members.inside, List.nil_append, List.drop_left]
    exact not_mem_of_isBlank (layout.isBlank_newLine depth)
  rw [hend, List.map_nil, List.append_nil, List.append_nil] at hrecords
  rw [methods_eq_methodsAfter, htypes]
  exact hrecords

end

end Glossator.Java

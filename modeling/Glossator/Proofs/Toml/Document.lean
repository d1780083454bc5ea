import Glossator.Proofs.Toml.Number
import Glossator.Proofs.Toml.Quoted
import Glossator.Toml.Document

/-!
# Documents in TOML

A document that is written from sections is read as the tables of these sections.

* `Toml.scalar?_render`: a value comes back from its written form.
* `Toml.read?_render`: the sections of a document come back from its text.
-/

set_option autoImplicit false

namespace Glossator.Toml

open Outline (Fields)

variable {c : Char} {t rest name : Text} {v : Scalar}

/-! ### Values -/

/-- The value has a written form of its own: strings, integers that are not too large, and truth
values. -/
def Scalar.IsWritable : Scalar → Prop
  | string _ | boolean _ => True
  | integer i => IsIntegerRange i
  | float _ | moment _ => False

theorem exists_quote_cons (t : Text) : ∃ c u, quote t = c :: u ∧ (c = '"' ∨ c = '\'') := by
  unfold quote
  cases quoting t with
  | double | tripleDouble => exact ⟨'"', _, rfl, .inl rfl⟩
  | single | tripleSingle => exact ⟨'\'', _, rfl, .inr rfl⟩

/-- A value comes back from its written form. -/
theorem scalar?_render (hv : v.IsWritable) (rest : Text) :
    scalar? (v.render ++ '\n' :: rest) = some (v, '\n' :: rest) := by
  cases v with
  | string s =>
    have hread : string? (quote s ++ '\n' :: rest) = some (s, '\n' :: rest) :=
      string?_quote s (by simp)
    obtain ⟨c, u, hcons, hc⟩ := exists_quote_cons s
    rw [hcons, List.cons_append] at hread
    rw [Scalar.render, hcons, List.cons_append]
    rcases hc with rfl | rfl <;> simp [scalar?, hread]
  | integer i =>
    have hmoment := moment?_decimalInt i rest
    have hnumber := number?_decimalInt hv rest
    obtain ⟨c, u, hcons, hc⟩ := Digits.exists_decimalInt_cons i
    have hne {d : Char} {t : Text} (heq : c :: (u ++ '\n' :: rest) = d :: t) :
        d.isDigit = true ∨ d = '-' := (List.cons.inj heq).1 ▸ hc
    rw [hcons, List.cons_append] at hmoment hnumber
    rw [Scalar.render, hcons, List.cons_append]
    unfold scalar?
    split
    · next heq => exact absurd (hne heq) (by decide)
    · next heq => exact absurd (hne heq) (by decide)
    · next heq => exact absurd (hne heq) (by decide)
    · next heq => exact absurd (hne heq) (by decide)
    · rw [hmoment, hnumber]
  | boolean b => cases b <;> rfl
  | float literal | moment literal => cases hv

theorem exists_render_cons (hv : v.IsWritable) :
    ∃ c u, v.render = c :: u ∧ isSpace c = false ∧ c ≠ '[' ∧ c ≠ '\x7b' := by
  cases v with
  | string s =>
    obtain ⟨c, u, hcons, rfl | rfl⟩ := exists_quote_cons s
    · exact ⟨_, u, hcons, by decide⟩
    · exact ⟨_, u, hcons, by decide⟩
  | integer i =>
    obtain ⟨c, u, hcons, hc⟩ := Digits.exists_decimalInt_cons i
    refine ⟨c, u, hcons, ?_, ?_, ?_⟩
    · simp only [isSpace, Bool.or_eq_false_iff, beq_eq_false_iff_ne]
      constructor <;> (rintro rfl; revert hc; decide)
    · rintro rfl
      revert hc
      decide
    · rintro rfl
      revert hc
      decide
  | boolean b => cases b <;> exact ⟨_, _, rfl, by decide⟩
  | float literal | moment literal => cases hv

theorem value?_render (hv : v.IsWritable) (depth : Nat) :
    value? depth (v.render ++ '\n' :: rest) = some (.scalar v, '\n' :: rest) := by
  have hread := scalar?_render hv rest
  obtain ⟨c, u, hcons, -, hbracket, hbrace⟩ := exists_render_cons hv
  rw [hcons, List.cons_append] at hread ⊢
  unfold value?
  split
  · next heq => exact absurd (List.cons.inj heq).1 hbracket
  · next heq => exact absurd (List.cons.inj heq).1 hbrace
  · next heq => exact absurd (List.cons.inj heq).1 hbracket
  · next heq => exact absurd (List.cons.inj heq).1 hbrace
  · rw [hread]
    rfl

/-! ### Keys -/

/-- The name may stand without quotes. -/
structure IsName (name : Text) : Prop where
  ne_nil : name ≠ []
  bare : ∀ c ∈ name, isBare c = true

theorem IsName.skipSpaces_append (h : IsName name) (t : Text) :
    skipSpaces (name ++ t) = name ++ t := by
  cases name with
  | nil => exact absurd rfl h.ne_nil
  | cons c u =>
    have hbare := h.bare c List.mem_cons_self
    have hspace : isSpace c = false := by
      simp only [isSpace, Bool.or_eq_false_iff, beq_eq_false_iff_ne]
      constructor <;> (rintro rfl; revert hbare; decide)
    simp [skipSpaces, hspace]

/-- A name is read as a key up to a character that is no part of it. -/
theorem IsName.key?_append (h : IsName name) (rest : Text) (hbare : isBare c = false)
    (hdot : ∀ u, skipSpaces (c :: rest) ≠ '.' :: u) :
    key? (name ++ c :: rest) = some (([], name), skipSpaces (c :: rest)) := by
  have htake : (name ++ c :: rest).takeWhile isBare = name := by
    simp [List.takeWhile_append_of_pos h.bare, hbare]
  have hdrop : (name ++ c :: rest).dropWhile isBare = c :: rest := by
    simp [List.dropWhile_append_of_pos h.bare, hbare]
  have hsimple : simpleKey? (name ++ c :: rest) = some (name, c :: rest) := by
    rw [simpleKey?, htake, hdrop]
    split
    · exact absurd rfl h.ne_nil
    · rfl
  have hparts : keyParts? maxDepth (name ++ c :: rest) =
      some ([name], skipSpaces (c :: rest)) := by
    rw [maxDepth, keyParts?, h.skipSpaces_append, hsimple]
    simp only [Option.bind_eq_bind, Option.bind_some]
  rw [key?, hparts]
  rfl

/-! ### Lines -/

variable {draft : Draft} {fields : Fields}

@[simp] theorem afterLine?_newline (rest : Text) : afterLine? ('\n' :: rest) = some rest := by
  simp [afterLine?, skipSpaces, isSpace, skipComment, afterNewline?]

/-- The line of a header opens its table. -/
theorem line?_header (draft : Draft) (h : IsName name) (rest : Text)
    (hopen : draft.fields.openTable [] name = some fields) :
    line? draft ('[' :: (name ++ [']', '\n']) ++ rest) = some (⟨fields, [name]⟩, rest) := by
  have hskip : skipSpaces (']' :: '\n' :: rest) = ']' :: '\n' :: rest := by
    simp [skipSpaces, isSpace]
  have hkey := h.key?_append (c := ']') ('\n' :: rest) (by decide) (by simp [hskip])
  rw [hskip] at hkey
  have hheader : header? draft (name ++ ']' :: '\n' :: rest) = some (⟨fields, [name]⟩, rest) := by
    simp [header?, hkey, after?, hopen]
  obtain ⟨c, u, rfl⟩ := List.exists_cons_of_ne_nil h.ne_nil
  have hbracket : c ≠ '[' := by
    have hbare := h.bare c List.mem_cons_self
    rintro rfl
    revert hbare
    decide
  simp only [List.cons_append, List.append_assoc, List.nil_append] at hheader ⊢
  unfold line?
  split
  · next heq => exact absurd (List.cons.inj (List.cons.inj heq).2).1 hbracket
  · next heq =>
    cases heq
    exact hheader
  · next heq => exact absurd (List.cons.inj heq).1 (by decide)
  · next heq => exact absurd (List.cons.inj heq).1 (by decide)
  · next heq => exact absurd (List.cons.inj heq).1 (by decide)
  · next hother _ _ _ => exact absurd rfl (hother _)

/-- The line of a setting gives it its value. -/
theorem line?_setting (draft : Draft) (h : IsName name) (hv : v.IsWritable) (rest : Text)
    (hassign : draft.fields.assignIn draft.table [] name (.scalar v) = some fields) :
    line? draft (name ++ " = ".toList ++ v.render ++ ['\n'] ++ rest) =
      some (⟨fields, draft.table⟩, rest) := by
  have hskip : skipSpaces (' ' :: '=' :: ' ' :: (v.render ++ '\n' :: rest)) =
      '=' :: ' ' :: (v.render ++ '\n' :: rest) := by
    simp [skipSpaces, isSpace]
  have hvalue : skipSpaces (' ' :: (v.render ++ '\n' :: rest)) = v.render ++ '\n' :: rest := by
    obtain ⟨c, u, hcons, hspace, -⟩ := exists_render_cons hv
    simpa [hcons, skipSpaces, isSpace] using hspace
  have hkey := h.key?_append (c := ' ') ('=' :: ' ' :: (v.render ++ '\n' :: rest))
    (by decide) (by simp [hskip])
  rw [hskip] at hkey
  have hsetting : setting? draft (name ++ ' ' :: '=' :: ' ' :: (v.render ++ '\n' :: rest)) =
      some (⟨fields, draft.table⟩, rest) := by
    simp [setting?, hkey, after?, hvalue, value?_render hv, hassign]
  obtain ⟨c, u, rfl⟩ := List.exists_cons_of_ne_nil h.ne_nil
  have hbare := h.bare c List.mem_cons_self
  have hassoc : (c :: u) ++ " = ".toList ++ v.render ++ ['\n'] ++ rest =
      c :: (u ++ ' ' :: '=' :: ' ' :: (v.render ++ '\n' :: rest)) := by simp
  rw [List.cons_append] at hsetting
  rw [hassoc]
  have hne {d : Char} {t : Text}
      (heq : c :: (u ++ ' ' :: '=' :: ' ' :: (v.render ++ '\n' :: rest)) = d :: t) :
      isBare d = true := (List.cons.inj heq).1 ▸ hbare
  unfold line?
  split
  · next heq => exact absurd (hne heq) (by decide)
  · next heq => exact absurd (hne heq) (by decide)
  · next heq => exact absurd (hne heq) (by decide)
  · next heq => exact absurd (hne heq) (by decide)
  · next heq => exact absurd (hne heq) (by decide)
  · exact hsetting

/-- The lines at the start of a text turn a draft into another one. -/
def ReadsDraft (draft : Draft) (t : Text) (draft' : Draft) (rest : Text) : Prop :=
  ∀ bound, t.length < bound →
    ∃ bound', rest.length < bound' ∧ lines? bound draft t = lines? bound' draft' rest

theorem ReadsDraft.refl (draft : Draft) (t : Text) : ReadsDraft draft t draft t :=
  fun bound hbound => ⟨bound, hbound, rfl⟩

theorem ReadsDraft.trans {draft' draft'' : Draft} {u : Text} (h : ReadsDraft draft t draft' u)
    (h' : ReadsDraft draft' u draft'' rest) : ReadsDraft draft t draft'' rest := by
  intro bound hbound
  obtain ⟨bound', hbound', hread⟩ := h bound hbound
  obtain ⟨bound'', hbound'', hread'⟩ := h' bound' hbound'
  exact ⟨bound'', hbound'', hread.trans hread'⟩

theorem ReadsDraft.of_line? {draft' : Draft} (hskip : skipSpaces t = t)
    (hline : line? draft t = some (draft', rest)) (hlength : rest.length < t.length) :
    ReadsDraft draft t draft' rest := by
  intro bound hbound
  obtain ⟨bound, rfl⟩ := Nat.exists_eq_add_one_of_ne_zero (Nat.ne_of_gt (Nat.zero_lt_of_lt hbound))
  refine ⟨bound, by omega, ?_⟩
  rw [lines?, hskip]
  cases t with
  | nil => cases hlength
  | cons c u => simp [hline]

/-! ### Sections -/

/-- The settings of a section under construction. -/
def settingFields (settings : List (Text × Scalar)) : Fields :=
  settings.map fun (name, v) => (name, .value (.scalar v))

/-- The section under construction. -/
def Section.outline (s : Section) : Text × Outline :=
  (s.name, .table .header (settingFields s.settings))

/-- The section can be written: its names need no quotes, no setting occurs twice, and the values
have written forms. -/
structure Section.IsWritable (s : Section) : Prop where
  name : IsName s.name
  names : ∀ setting ∈ s.settings, IsName setting.1
  values : ∀ setting ∈ s.settings, setting.2.IsWritable
  nodup : (s.settings.map Prod.fst).Nodup

theorem lookup_eq_none {β : Type} {entries : List (Text × β)} (h : name ∉ entries.map Prod.fst) :
    entries.lookup name = none := by
  rw [List.lookup_eq_none_iff]
  intro entry hentry
  rw [bne_iff_ne]
  rintro rfl
  exact h (List.mem_map_of_mem hentry)

theorem not_mem_of_nodup {name : Text} {names names' : List Text}
    (h : (names ++ name :: names').Nodup) : name ∉ names := fun hmem =>
  List.disjoint_of_nodup_append h hmem List.mem_cons_self

theorem openTable_append (h : name ∉ fields.map Prod.fst) :
    fields.openTable [] name = some (fields ++ [(name, .table .header [])]) := by
  rw [Fields.openTable, Fields.descend, lookup_eq_none h]

/-- A setting is added to the table of its section, which is the last one. -/
theorem assignIn_append {section' : Text} {inner : Fields} {value : Toml}
    (hsection : section' ∉ fields.map Prod.fst) (hname : name ∉ inner.map Prod.fst) :
    Fields.assignIn [section'] [] name value (fields ++ [(section', .table .header inner)]) =
      some (fields ++ [(section', .table .header (inner ++ [(name, .value value)]))]) := by
  have hlookup : (fields ++ [(section', Outline.table .header inner)]).lookup section' =
      some (.table .header inner) := by
    rw [List.lookup_append, lookup_eq_none hsection]
    simp
  have hassign : Fields.assign [] name value inner = some (inner ++ [(name, .value value)]) := by
    rw [Fields.assign, Fields.descend, lookup_eq_none hname]
    simp
  have hset (outline : Outline) : Fields.set (fields ++ [(section', .table .header inner)]) section'
      outline = fields ++ [(section', outline)] := by
    have hkeep : Fields.set fields section' outline = fields := by
      conv_rhs => rw [← List.map_id fields]
      refine List.map_congr_left ?_
      rintro ⟨n, o⟩ hentry
      refine if_neg fun heq => hsection ?_
      rw [← heq]
      exact List.mem_map_of_mem hentry
    rw [Fields.set, List.map_append]
    exact congrArg₂ (· ++ ·) hkeep (by simp)
  rw [Fields.assignIn, Fields.descend, hlookup]
  simp [Fields.descend, hassign, hset]

/-- The lines of settings are added to those of their section that were read before. -/
theorem readsDraft_settings {section' : Text} (hsection : section' ∉ fields.map Prod.fst)
    (before : List (Text × Scalar)) {settings : List (Text × Scalar)}
    (hnames : ∀ setting ∈ settings, IsName setting.1)
    (hvalues : ∀ setting ∈ settings, setting.2.IsWritable)
    (hnodup : ((before ++ settings).map Prod.fst).Nodup) (rest : Text) :
    ReadsDraft ⟨fields ++ [(section', .table .header (settingFields before))], [section']⟩
      ((settings.flatMap fun (name, value) =>
        name ++ " = ".toList ++ value.render ++ ['\n']) ++ rest)
      ⟨fields ++ [(section', .table .header (settingFields (before ++ settings)))], [section']⟩
      rest := by
  induction settings generalizing before with
  | nil =>
    rw [List.append_nil]
    exact .refl _ _
  | cons setting settings ih =>
    obtain ⟨name, value⟩ := setting
    have hname := hnames _ List.mem_cons_self
    have hvalue := hvalues _ List.mem_cons_self
    have hnew : name ∉ (settingFields before).map Prod.fst := by
      rw [List.map_append, List.map_cons] at hnodup
      simpa [settingFields] using not_mem_of_nodup hnodup
    have hline (rest : Text) := line?_setting
      ⟨fields ++ [(section', .table .header (settingFields before))], [section']⟩ hname hvalue rest
      (assignIn_append hsection hnew)
    have hafter := ih (before ++ [(name, value)])
      (fun setting h => hnames _ (List.mem_cons_of_mem _ h))
      (fun setting h => hvalues _ (List.mem_cons_of_mem _ h)) (by simpa using hnodup)
    rw [List.flatMap_cons, List.append_assoc]
    refine .trans (.of_line? ?_ (hline _) (by simp; omega)) ?_
    · simpa using hname.skipSpaces_append _
    · simpa [settingFields] using hafter

/-- The lines of a section that is new add it to those that were read before. -/
theorem readsDraft_section {s : Section} (hs : s.IsWritable) (hname : s.name ∉ fields.map Prod.fst)
    (table : List Text) (rest : Text) :
    ReadsDraft ⟨fields, table⟩ (s.render ++ rest) ⟨fields ++ [s.outline], [s.name]⟩ rest := by
  have hline (rest : Text) := line?_header ⟨fields, table⟩ hs.name rest
    (openTable_append hname)
  have hsettings := readsDraft_settings hname [] hs.names hs.values hs.nodup rest
  rw [Section.render, List.append_assoc]
  exact .trans (.of_line? (by simp [skipSpaces, isSpace]) (hline _) (by simp; omega)) hsettings

theorem readsDraft_sections (fields : Fields) {s : Section} {ss : List Section}
    (hs : ∀ s' ∈ s :: ss, s'.IsWritable)
    (hnodup : (fields.map Prod.fst ++ (s :: ss).map Section.name).Nodup) (table : List Text) :
    ∃ table', ReadsDraft ⟨fields, table⟩ (render (s :: ss))
      ⟨fields ++ (s :: ss).map Section.outline, table'⟩ [] := by
  induction ss generalizing s fields table with
  | nil =>
    have hname : s.name ∉ fields.map Prod.fst := not_mem_of_nodup hnodup
    have hread := readsDraft_section (hs s List.mem_cons_self) hname table []
    exact ⟨_, by simpa [render, Text.join] using hread⟩
  | cons s' ss ih =>
    have hname : s.name ∉ fields.map Prod.fst := not_mem_of_nodup hnodup
    have hread := readsDraft_section (hs s List.mem_cons_self) hname table
      ('\n' :: render (s' :: ss))
    -- a blank line stands between two sections, and changes nothing
    have hblank : ReadsDraft ⟨fields ++ [s.outline], [s.name]⟩ ('\n' :: render (s' :: ss))
        ⟨fields ++ [s.outline], [s.name]⟩ (render (s' :: ss)) :=
      .of_line? (by simp [skipSpaces, isSpace]) rfl (Nat.lt_succ_self _)
    obtain ⟨table', hrest⟩ := ih (fields ++ [s.outline])
      (fun s'' h => hs s'' (List.mem_cons_of_mem _ h)) (by simpa [Section.outline] using hnodup)
      [s.name]
    refine ⟨table', ?_⟩
    have hrender : render (s :: s' :: ss) = s.render ++ '\n' :: render (s' :: ss) := by
      simp [render, Text.join]
    rw [hrender]
    simpa using (hread.trans hblank).trans hrest

/-- The table of a section. -/
def Section.toToml (s : Section) : Text × Toml :=
  (s.name, .table (s.settings.map fun (name, v) => (name, .scalar v)))

theorem toTomlFields_outline (ss : List Section) :
    Outline.toTomlFields (ss.map Section.outline) = ss.map Section.toToml := by
  have hsettings (settings : List (Text × Scalar)) :
      Outline.toTomlFields (settingFields settings) =
        settings.map fun (name, v) => (name, .scalar v) := by
    induction settings with
    | nil => rfl
    | cons setting settings ih =>
      rw [settingFields] at ih ⊢
      simp [Outline.toTomlFields, Outline.toToml, ih]
  induction ss with
  | nil => rfl
  | cons s ss ih =>
    simp [Outline.toTomlFields, Outline.toToml, Section.outline, Section.toToml, hsettings, ih]

/-- The sections of a document come back from its text. -/
theorem read?_render {ss : List Section} (hs : ∀ s ∈ ss, s.IsWritable)
    (hnodup : (ss.map Section.name).Nodup) : read? (render ss) = some (ss.map Section.toToml) := by
  cases ss with
  | nil => rfl
  | cons s ss =>
    obtain ⟨table, hread⟩ := readsDraft_sections [] hs hnodup []
    obtain ⟨bound, hbound, hlines⟩ := hread _ (Nat.lt_succ_self _)
    obtain ⟨bound, rfl⟩ := Nat.exists_eq_add_one_of_ne_zero (Nat.ne_of_gt hbound)
    have hmark : withoutByteOrderMark (render (s :: ss)) = render (s :: ss) := by
      obtain ⟨u, hu⟩ : ∃ u, render (s :: ss) = '[' :: u := by
        cases ss <;> exact ⟨_, rfl⟩
      rw [hu]
      rfl
    have hend : lines? (bound + 1) ⟨[] ++ (s :: ss).map Section.outline, table⟩ [] =
        some ((s :: ss).map Section.outline) := rfl
    simp only [read?, hmark, hlines, hend, Option.map_some, toTomlFields_outline]

end Glossator.Toml

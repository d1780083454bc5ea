import Glossator.Pattern.Plan

/-!
# Searching

A finder is a pattern prepared for searching one text. A match is the preferred way at the first
place that has one; `Finder.all` gives the matches one after another, each search starting where
the match before it ended.

* `Finder.start_le_of_find?`: a search never matches before the place it starts from.
-/

set_option autoImplicit false

namespace Glossator

/-- A match of a pattern: where it lies, and the parts it reported. -/
structure Match (γ : Type) where
  start : Nat
  stop : Nat
  parts : List (γ × Span)

namespace Match

variable {γ : Type}

/-- The range of the whole match. -/
def span (m : Match γ) : Span := ⟨m.start, m.stop⟩

/-- Where a part matched last, if it took part in the match. -/
def span? [DecidableEq γ] (m : Match γ) (name : γ) : Option Span := m.parts.lookup name

/-- The text of a part, if it took part in the match; `source` is the text that was searched. -/
def text? [DecidableEq γ] (m : Match γ) (source : Text) (name : γ) : Option Text :=
  (m.span? name).map fun s => s.slice source

/-- The text of a part, empty if it took no part in the match. -/
def text [DecidableEq γ] (m : Match γ) (source : Text) (name : γ) : Text :=
  (m.text? source name).getD []

end Match

/-- A pattern prepared for searching one text. -/
structure Finder (γ : Type) where
  /-- The number of characters of the text. -/
  size : Nat
  /-- The places from which the plan can lead to a match. -/
  entries : Places
  plan : Plan γ

namespace Finder

variable {γ : Type}

/-- The finder of a pattern in a text. -/
def ofPattern (p : Pattern γ) (t : Text) : Finder γ :=
  let plan := p.plan t
  let everywhere := Places.upTo (t.length + 1)
  { size := t.length
    entries := plan.reach t.length everywhere
    plan := plan.guided t.length everywhere }

/-- The preferred match at one place. -/
def at? (f : Finder γ) (offset : Nat) : Option (Match γ) :=
  if f.entries.testBit offset then
    f.plan.attempt f.size ⟨offset, []⟩ fun o => some ⟨offset, o.offset, o.parts⟩
  else none

/-- The match at the first of so many places from an offset on. -/
def search? (f : Finder γ) : Nat → Nat → Option (Match γ)
  | 0, _ => none
  | count + 1, offset => (f.at? offset).or (search? f count (offset + 1))

/-- The match at the first place at or after an offset. -/
def find? (f : Finder γ) (offset : Nat) : Option (Match γ) :=
  f.search? (f.size + 1 - offset) offset

/-- Up to so many matches from an offset on, one after another. -/
def allFrom (f : Finder γ) : Nat → Nat → List (Match γ)
  | 0, _ => []
  | bound + 1, offset =>
    match f.find? offset with
    | none => []
    | some m => m :: if m.start < m.stop then allFrom f bound m.stop else []

/-- All matches of a pattern that never matches the empty text, from left to right. -/
def all (f : Finder γ) : List (Match γ) := f.allFrom (f.size + 1) 0

/-- A match at a place starts there. -/
theorem start_of_at? {f : Finder γ} {offset : Nat} {m : Match γ} (h : f.at? offset = some m) :
    m.start = offset := by
  rw [at?] at h
  split at h
  · obtain ⟨o, h⟩ := Plan.exists_of_attempt h
    cases h
    rfl
  · cases h

/-- A search over some places never matches before the first of them. -/
theorem start_le_of_search? {f : Finder γ} {count offset : Nat} {m : Match γ}
    (h : f.search? count offset = some m) : offset ≤ m.start := by
  induction count generalizing offset with
  | zero => cases h
  | succ count ih =>
    rw [search?, Option.or_eq_some_iff] at h
    rcases h with h | ⟨-, h⟩
    · exact Nat.le_of_eq (start_of_at? h).symm
    · exact Nat.le_of_succ_le (ih h)

/-- A search never matches before the place it starts from. -/
theorem start_le_of_find? {f : Finder γ} {offset : Nat} {m : Match γ}
    (h : f.find? offset = some m) : offset ≤ m.start := start_le_of_search? h
end Finder

namespace Pattern

variable {γ : Type}

/-- The first match of a pattern in a text. -/
def find? (p : Pattern γ) (t : Text) : Option (Match γ) := (Finder.ofPattern p t).find? 0

/-- All matches of a pattern that never matches the empty text, from left to right. -/
def findAll (p : Pattern γ) (t : Text) : List (Match γ) := (Finder.ofPattern p t).all

/-- The pattern matches somewhere in a text. -/
def occursIn (p : Pattern γ) (t : Text) : Bool := (p.find? t).isSome

end Pattern

end Glossator

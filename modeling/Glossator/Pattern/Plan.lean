import Glossator.Pattern.Places

/-!
# Plans

A plan is a pattern made ready for one text: the places at which each of its elements can go on are
known as sets. From the set of places that a plan should end in, `Plan.reach` computes the places
from which it can get there, for all places at once, and `Plan.guided` bars every way that cannot
lead to the goal. Searching a guided plan never goes wrong for long, whatever the text.

* `Plan.exists_of_attempt`: an answer of a plan is an answer of what follows it.
-/

set_option autoImplicit false

namespace Glossator

/-- A pattern made ready for one text; `γ` names the parts that are reported. -/
inductive Plan (γ : Type) where
  /-- Stays where it is. -/
  | stay
  /-- Stays where it is, in one of the places only. -/
  | guard (places : Places)
  /-- Goes a fixed way, from one of the places only. -/
  | step (width : Nat) (places : Places)
  /-- Goes on one place at a time while it is in one of the places, preferably far. -/
  | run (places : Places)
  /-- One plan and then another. -/
  | andThen (first second : Plan γ)
  /-- Either of two plans, preferably the left one. -/
  | orElse (left right : Plan γ)
  /-- Any number of times, preferably many. -/
  | star (body : Plan γ)
  /-- Reports the range that the plan went over. -/
  | part (name : γ) (body : Plan γ)

/-- How far a search has come, and the parts it has passed, the latest first. -/
structure Progress (γ : Type) where
  offset : Nat
  parts : List (γ × Span)

namespace Pattern

variable {γ : Type}

/-- A pattern made ready for a text. -/
def plan (t : Text) : Pattern γ → Plan γ
  | empty => .stay
  | fixed piece => .step piece.length (Places.whereTest t fun c => piece.isPrefixOf c.rest)
  | one cls => .step 1 (Places.whereTest t fun c => c.rest.head?.any cls)
  | many cls => .run (Places.whereTest t fun c => c.rest.head?.any cls)
  | lineStart => .guard (Places.whereTest t Cursor.atLineStart)
  | wordEdge => .guard (Places.whereTest t Cursor.atWordEdge)
  | andThen first second => .andThen (plan t first) (plan t second)
  | orElse left right => .orElse (plan t left) (plan t right)
  | star body => .star (plan t body)
  | part name body => .part name (plan t body)

end Pattern

namespace Plan

variable {γ : Type}

/-- The places from which a plan can get to a goal, in a text of the given size. -/
def reach (size : Nat) : Plan γ → Places → Places
  | stay, goal => goal
  | guard places, goal => goal &&& places
  | step width places, goal => (goal >>> width) &&& places
  | run places, goal => Places.runsTo (Nat.log2 size + 1) 1 places goal
  | andThen first second, goal => reach size first (reach size second goal)
  | orElse left right, goal => reach size left goal ||| reach size right goal
  | star body, goal => Places.closure (reach size body) size (size + 2) goal
  | part _ body, goal => reach size body goal

/-- The plan with every way barred that cannot lead to the goal. -/
def guided (size : Nat) : Plan γ → Places → Plan γ
  | andThen first second, goal =>
    let between := reach size second goal
    andThen (guided size first between) (andThen (guard between) (guided size second goal))
  | orElse left right, goal => orElse (guided size left goal) (guided size right goal)
  | star body, goal =>
    let again := reach size (star body) goal
    star (andThen (guided size body again) (guard again))
  | part name body, goal => part name (guided size body goal)
  | p, _ => p

/-- The number of places in a row, from an offset on, that belong to a set; at most a bound. -/
def runLength (places : Places) : Nat → Nat → Nat
  | 0, _ => 0
  | bound + 1, offset =>
    if places.testBit offset then runLength places bound (offset + 1) + 1 else 0

/-- The first answer on a way of the given length or a shorter one. -/
def attemptDown {β : Type} (next : Nat → Option β) : Nat → Option β
  | 0 => next 0
  | length + 1 => (next (length + 1)).or (attemptDown next length)

/-- Takes a step once more and leads on from there, or else leads on from here. -/
def attemptRepeat {β : Type} (step : Progress γ → (Progress γ → Option β) → Option β)
    (next : Progress γ → Option β) : Nat → Progress γ → Option β
  | 0, o => next o
  | bound + 1, o =>
    (step o fun o' =>
      if o.offset < o'.offset then attemptRepeat step next bound o' else none).or (next o)

/-- The first answer of `next` where the plan can lead, the preferred way first. -/
def attempt {β : Type} (size : Nat) :
    Plan γ → Progress γ → (Progress γ → Option β) → Option β
  | stay, o, next => next o
  | guard places, o, next => if places.testBit o.offset then next o else none
  | step width places, o, next =>
    if places.testBit o.offset then next ⟨o.offset + width, o.parts⟩ else none
  | run places, o, next =>
    attemptDown (fun length => next ⟨o.offset + length, o.parts⟩) (runLength places size o.offset)
  | andThen first second, o, next => attempt size first o fun o' => attempt size second o' next
  | orElse left right, o, next => (attempt size left o next).or (attempt size right o next)
  | star body, o, next => attemptRepeat (attempt size body) next (size - o.offset) o
  | part name body, o, next => attempt size body o fun o' =>
      next ⟨o'.offset, (name, ⟨o.offset, o'.offset⟩) :: o'.parts⟩

variable {β : Type}

/-- An answer of a way downwards is the answer of one length. -/
theorem exists_of_attemptDown {next : Nat → Option β} {r : β} :
    ∀ {length : Nat}, attemptDown next length = some r → ∃ n, next n = some r
  | 0, h => ⟨0, h⟩
  | length + 1, h => by
    rw [attemptDown, Option.or_eq_some_iff] at h
    rcases h with h | ⟨-, h⟩
    · exact ⟨_, h⟩
    · exact exists_of_attemptDown h

/-- An answer of a repetition is an answer of what follows it. -/
theorem exists_of_attemptRepeat {step : Progress γ → (Progress γ → Option β) → Option β}
    {next : Progress γ → Option β} {r : β}
    (hstep : ∀ o next, step o next = some r → ∃ o', next o' = some r) :
    ∀ {bound : Nat} {o : Progress γ}, attemptRepeat step next bound o = some r →
      ∃ o', next o' = some r
  | 0, o, h => ⟨o, h⟩
  | bound + 1, o, h => by
    rw [attemptRepeat, Option.or_eq_some_iff] at h
    rcases h with h | ⟨-, h⟩
    · obtain ⟨o', h'⟩ := hstep _ _ h
      split at h'
      · exact exists_of_attemptRepeat hstep h'
      · cases h'
    · exact ⟨o, h⟩

/-- An answer of a plan is an answer of what follows it. -/
theorem exists_of_attempt {size : Nat} {p : Plan γ} {o : Progress γ} {next : Progress γ → Option β}
    {r : β} (h : attempt size p o next = some r) : ∃ o', next o' = some r := by
  induction p generalizing o next with
  | stay => exact ⟨_, h⟩
  | guard places =>
    simp only [attempt] at h
    split at h
    · exact ⟨_, h⟩
    · cases h
  | step width places =>
    simp only [attempt] at h
    split at h
    · exact ⟨_, h⟩
    · cases h
  | run places =>
    obtain ⟨n, h⟩ := exists_of_attemptDown h
    exact ⟨_, h⟩
  | andThen first second ihFirst ihSecond =>
    obtain ⟨o', h⟩ := ihFirst h
    exact ihSecond h
  | orElse left right ihLeft ihRight =>
    rw [attempt, Option.or_eq_some_iff] at h
    rcases h with h | ⟨-, h⟩
    · exact ihLeft h
    · exact ihRight h
  | star body ih => exact exists_of_attemptRepeat (fun _ _ h => ih h) h
  | part name body ih =>
    obtain ⟨o', h⟩ := ih h
    exact ⟨_, h⟩
end Plan

end Glossator

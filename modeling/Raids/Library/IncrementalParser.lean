import Mathlib.Tactic

namespace IncrementalParser

variable {α μ ε : Type}

/-- One attempt wants more input, fails, or yields a message and its length. -/
inductive Attempt (μ ε : Type) where
  | more
  | fail (error : ε)
  | item (message : μ) (length : Nat)
  deriving DecidableEq

/-- A message that starts later ends later. -/
def Attempt.shift (distance : Nat) : Attempt μ ε → Attempt μ ε
  | .more => .more
  | .fail error => .fail error
  | .item message length => .item message (length + distance)

theorem Attempt.shift_eq_item {distance : Nat} {attempt : Attempt μ ε} {message : μ}
    {length : Nat} (shifted : attempt.shift distance = .item message length) :
    ∃ inner, attempt = .item message inner ∧ length = inner + distance := by
  cases attempt with
  | more => cases shifted
  | fail error => cases shifted
  | item first inner =>
      obtain ⟨rfl, rfl⟩ := Attempt.item.inj shifted
      exact ⟨inner, rfl, rfl⟩

theorem Attempt.shift_eq_fail {distance : Nat} {attempt : Attempt μ ε} {error : ε} :
    attempt.shift distance = .fail error ↔ attempt = .fail error := by
  cases attempt <;> simp [Attempt.shift]

theorem Attempt.shift_shift (first second : Nat) (attempt : Attempt μ ε) :
    (attempt.shift first).shift second = attempt.shift (second + first) := by
  cases attempt with
  | more => rfl
  | fail error => rfl
  | item message length => rw [shift, shift, shift, Nat.add_assoc, Nat.add_comm first]

/-- The reader of a stream sees messages and errors. -/
inductive Event (μ ε : Type) where
  | message (value : μ)
  | error (value : ε)
  deriving DecidableEq

/-- All messages, also those after an error. -/
def messages (events : List (Event μ ε)) : List μ :=
  events.filterMap fun
    | .message value => some value
    | .error _ => none

/-- The messages before the first error, and that error. -/
def upToError : List (Event μ ε) → List μ × Option ε
  | [] => ([], none)
  | .message value :: events => (value :: (upToError events).1, (upToError events).2)
  | .error value :: _ => ([], some value)

@[simp] theorem upToError_nil : upToError ([] : List (Event μ ε)) = ([], none) := rfl

@[simp] theorem upToError_message (value : μ) (events : List (Event μ ε)) :
    upToError (.message value :: events) =
      (value :: (upToError events).1, (upToError events).2) := rfl

@[simp] theorem upToError_error (value : ε) (events : List (Event μ ε)) :
    upToError (.error value :: events) = ([], some value) := rfl

/-- Later events do not matter after an error, and follow the messages otherwise. -/
theorem upToError_append (first second : List (Event μ ε)) :
    upToError (first ++ second) =
      match (upToError first).2 with
      | some error => ((upToError first).1, some error)
      | none => ((upToError first).1 ++ (upToError second).1, (upToError second).2) := by
  induction first with
  | nil => rfl
  | cons event first ih =>
      cases event with
      | error value => rfl
      | message value =>
          simp only [List.cons_append, upToError_message, ih]
          cases (upToError first).2 <;> rfl

/-- The loop takes messages until it needs more input; an error drops the buffer. -/
def drainFuel (parse : List α → Attempt μ ε) : Nat → List α → List (Event μ ε) × List α
  | 0, buffer => ([], buffer)
  | fuel + 1, buffer =>
      match parse buffer with
      | .more => ([], buffer)
      | .fail error => ([.error error], [])
      | .item message length =>
          let rest := drainFuel parse fuel (buffer.drop length)
          (.message message :: rest.1, rest.2)

/-- Each message takes at least one element, so the buffer bounds the loop. -/
def drain (parse : List α → Attempt μ ε) (buffer : List α) : List (Event μ ε) × List α :=
  drainFuel parse buffer.length buffer

/-- The chunks arrive one by one behind the pending input. -/
def feed (parse : List α → Attempt μ ε) : List α → List (List α) → List (Event μ ε)
  | _, [] => []
  | pending, chunk :: chunks =>
      let drained := drain parse (pending ++ chunk)
      drained.1 ++ feed parse drained.2 chunks

/-- A message takes something and ends inside the buffer. -/
structure Progress (parse : List α → Attempt μ ε) : Prop where
  nil : parse [] = .more
  length_pos : ∀ {buffer message length}, parse buffer = .item message length → 0 < length
  length_le : ∀ {buffer message length}, parse buffer = .item message length →
    length ≤ buffer.length

/-- A parser decides only on evidence that longer inputs keep; it may only take more blanks. -/
structure Incremental (parse : List α → Attempt μ ε) (Blank : α → Prop) : Prop where
  nil : parse [] = .more
  length_pos : ∀ {buffer message length}, parse buffer = .item message length → 0 < length
  fail_append : ∀ {buffer error} more, parse buffer = .fail error →
    parse (buffer ++ more) = .fail error
  item_append : ∀ {buffer message length} more, parse buffer = .item message length →
    ∃ blanks rest, buffer.drop length ++ more = blanks ++ rest ∧ (∀ a ∈ blanks, Blank a) ∧
      parse (buffer ++ more) = .item message (length + blanks.length)
  length_le : ∀ {buffer message length}, parse buffer = .item message length →
    length ≤ buffer.length
  blank : ∀ {a} buffer, Blank a → parse (a :: buffer) = (parse buffer).shift 1

section Drain

variable {parse : List α → Attempt μ ε} {Blank : α → Prop}

theorem Incremental.progress (incremental : Incremental parse Blank) : Progress parse :=
  ⟨incremental.nil, incremental.length_pos, incremental.length_le⟩

theorem drainFuel_enough (progress : Progress parse) {fuel : Nat}
    {buffer : List α} (enough : buffer.length ≤ fuel) :
    drainFuel parse fuel buffer = drain parse buffer := by
  suffices same : ∀ {first second : Nat} {buffer : List α}, buffer.length ≤ first →
      buffer.length ≤ second → drainFuel parse first buffer = drainFuel parse second buffer from
    same enough le_rfl
  intro first
  induction first with
  | zero =>
      intro second buffer empty _
      have nil : buffer = [] := List.length_eq_zero_iff.mp (Nat.le_zero.mp empty)
      subst nil
      cases second <;> simp [drainFuel, progress.nil]
  | succ first ih =>
      intro second buffer fits fits'
      cases second with
      | zero =>
          have nil : buffer = [] := List.length_eq_zero_iff.mp (Nat.le_zero.mp fits')
          subst nil
          simp [drainFuel, progress.nil]
      | succ second =>
          simp only [drainFuel]
          cases attempt : parse buffer with
          | more => rfl
          | fail error => rfl
          | item message length =>
              have positive := progress.length_pos attempt
              have shorter : (buffer.drop length).length ≤ buffer.length - 1 := by
                rw [List.length_drop]
                omega
              have same : drainFuel parse first (buffer.drop length) =
                  drainFuel parse second (buffer.drop length) := by
                apply ih <;> omega
              simp only [same]

theorem drain_more (progress : Progress parse) {buffer : List α}
    (attempt : parse buffer = .more) : drain parse buffer = ([], buffer) := by
  rw [← drainFuel_enough progress (Nat.le_succ _)]
  simp [drainFuel, attempt]

theorem drain_fail (progress : Progress parse) {buffer : List α} {error : ε}
    (attempt : parse buffer = .fail error) : drain parse buffer = ([.error error], []) := by
  rw [← drainFuel_enough progress (Nat.le_succ _)]
  simp [drainFuel, attempt]

theorem drain_item (progress : Progress parse) {buffer : List α} {message : μ}
    {length : Nat} (attempt : parse buffer = .item message length) :
    drain parse buffer = (.message message :: (drain parse (buffer.drop length)).1,
      (drain parse (buffer.drop length)).2) := by
  rw [← drainFuel_enough progress (Nat.le_succ _)]
  simp only [drainFuel, attempt]
  rw [drainFuel_enough progress (by rw [List.length_drop]; omega)]

/-- The cases of one drained message are the cases of the loop. -/
theorem drain_induction (progress : Progress parse) {motive : List α → Prop}
    (more : ∀ buffer, parse buffer = .more → motive buffer)
    (fail : ∀ buffer error, parse buffer = .fail error → motive buffer)
    (item : ∀ buffer message length, parse buffer = .item message length →
      motive (buffer.drop length) → motive buffer)
    (buffer : List α) : motive buffer := by
  induction size : buffer.length using Nat.strong_induction_on generalizing buffer with
  | _ size ih =>
      cases attempt : parse buffer with
      | more => exact more buffer attempt
      | fail error => exact fail buffer error attempt
      | item message length =>
          have positive := progress.length_pos attempt
          have within := progress.length_le attempt
          refine item buffer message length attempt (ih _ ?_ _ rfl)
          rw [List.length_drop]
          omega

/-- A blank in front of the buffer changes no message and no error. -/
theorem upToError_drain_blank (incremental : Incremental parse Blank) {a : α}
    (blank : Blank a) (buffer : List α) :
    upToError (drain parse (a :: buffer)).1 = upToError (drain parse buffer).1 := by
  have shifted := incremental.blank buffer blank
  cases attempt : parse buffer with
  | more =>
      rw [attempt] at shifted
      rw [drain_more incremental.progress shifted, drain_more incremental.progress attempt]
  | fail error =>
      rw [attempt] at shifted
      rw [drain_fail incremental.progress shifted, drain_fail incremental.progress attempt]
  | item message length =>
      rw [attempt] at shifted
      rw [drain_item incremental.progress shifted, drain_item incremental.progress attempt]
      rfl

theorem upToError_drain_blanks (incremental : Incremental parse Blank) {blanks : List α}
    (all : ∀ a ∈ blanks, Blank a) (buffer : List α) :
    upToError (drain parse (blanks ++ buffer)).1 = upToError (drain parse buffer).1 := by
  induction blanks with
  | nil => rfl
  | cons a blanks ih =>
      rw [List.cons_append, upToError_drain_blank incremental (all a (by simp))]
      exact ih fun b member => all b (by simp [member])

/-- Draining a prefix first and its rest later gives the messages of the whole input. -/
theorem upToError_drain_append (incremental : Incremental parse Blank) (first second : List α) :
    upToError ((drain parse first).1 ++ (drain parse ((drain parse first).2 ++ second)).1) =
      upToError (drain parse (first ++ second)).1 := by
  induction first using drain_induction incremental.progress with
  | more buffer attempt => rw [drain_more incremental.progress attempt, List.nil_append]
  | fail buffer error attempt =>
      rw [drain_fail incremental.progress attempt,
        drain_fail incremental.progress (incremental.fail_append second attempt)]
      rfl
  | item buffer message length attempt ih =>
      obtain ⟨blanks, rest, split, all, whole⟩ := incremental.item_append second attempt
      have tail : (buffer ++ second).drop (length + blanks.length) = rest := by
        rw [← List.drop_drop, List.drop_append_of_le_length (incremental.length_le attempt),
          split, List.drop_left]
      rw [drain_item incremental.progress attempt, drain_item incremental.progress whole, tail]
      rw [split, upToError_drain_blanks incremental all] at ih
      rw [List.cons_append, upToError_message, upToError_message, ih]

/-- The pending input of a drained prefix holds no complete message. -/
theorem drain_pending (progress : Progress parse) (buffer : List α) :
    parse (drain parse buffer).2 = .more := by
  induction buffer using drain_induction progress with
  | more buffer attempt => rwa [drain_more progress attempt]
  | fail buffer error attempt => rw [drain_fail progress attempt]; exact progress.nil
  | item buffer message length attempt ih => rwa [drain_item progress attempt]

theorem drain_nil (progress : Progress parse) : drain parse [] = ([], []) :=
  drain_more progress progress.nil

/-- Any cut of the input gives the messages of the whole input up to the first error. -/
theorem upToError_feed (incremental : Incremental parse Blank) (pending : List α)
    (chunks : List (List α)) (waiting : parse pending = .more) :
    upToError (feed parse pending chunks) =
      upToError (drain parse (pending ++ chunks.flatten)).1 := by
  induction chunks generalizing pending with
  | nil => simp [feed, drain_more incremental.progress waiting]
  | cons chunk chunks ih =>
      rw [List.flatten_cons, ← List.append_assoc,
        ← upToError_drain_append incremental (pending ++ chunk), feed]
      rw [upToError_append, upToError_append,
        ih _ (drain_pending incremental.progress (pending ++ chunk))]

end Drain

end IncrementalParser

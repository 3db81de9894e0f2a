import Raids.Proof.Memcached.Continue
import Raids.Proof.Msg.Numeral

namespace Raids.Memcached
open Decimal

/-- The answer to a counter with a new number. -/
def counterReply (m : MemcachedMsg) (cas ival : Nat) : Bytes :=
  if m.binary then binHdr m 0 0 0 8 cas ++ BigEndian.digits 8 ival
  else sendString (uint64ToString ival)

/-- The answer to a counter whose value is not a number. -/
def counterError (m : MemcachedMsg) : Bytes :=
  if m.binary then sendBinStatus m .badIncrValue MemcachedBinStatus.badIncrValue.text
  else sendString (text "CLIENT_ERROR cannot increment or decrement non-numeric value")

/-- The number that a counter stores: a sum modulo two to the power of 64, or a difference that
stops at zero. -/
def counterNext (m : MemcachedMsg) (v : Nat) : Nat :=
  if m.command = .incr then (v + m.inc) % 2 ^ 64 else v - m.inc

/-- What a counter does, where some texts are numbers and some requests create a missing key: it
stores the digits of its reply, refuses another value, and gives a key that it creates the initial
value. -/
structure IncrMeets (number : Bytes → Nat → Prop) (creates : Prop) (run : KeyRun)
    (entry : Option McEntry) : Prop where
  counts : ∀ e v, entry = some e → e.type = .string → number e.data v →
    run.execKey entry = ⟨.ok, counterReply run.msg e.cas (counterNext run.msg v), none,
      some { e with data := uint64ToString (counterNext run.msg v), cas := e.cas + 1 }⟩
  refuses : ∀ e, entry = some e → e.type = .string → (∀ v, ¬number e.data v) →
    run.execKey entry = ⟨.ok, counterError run.msg, none, some e⟩
  misses : entry = none → ¬creates → (run.execKey entry).entry = none
  initial : entry = none → creates → ∃ cas, (run.execKey entry).entry =
    some { type := .string, data := uint64ToString run.msg.ini, cas := cas }

/-- A text of digits is a decimal number below two to the power of 64. -/
def IsDecimalText (str : Bytes) (v : Nat) : Prop :=
  str ≠ [] ∧ (∀ c ∈ str, IsDigit c) ∧ v = value str ∧ v < 2 ^ 64

section Incr

variable {run : KeyRun}

/-- A counter is dispatched by its form. -/
theorem execKey_counter (counter : run.msg.command = .incr ∨ run.msg.command = .decr)
    (entry : Option McEntry) :
    run.execCommand entry =
      if run.msg.binary then run.execBinIncr entry else run.execIncr entry := by
  rcases counter with incr | decr
  · rw [KeyRun.execCommand, incr]
  · rw [KeyRun.execCommand, decr]

/-- A key that has a type keeps what its command left. -/
theorem execKey_typed {entry : Option McEntry} {result : KeyResult}
    (same : run.execCommand entry = result)
    (typed : ∀ e, result.entry = some e → e.type ≠ .noData) : run.execKey entry = result := by
  rw [KeyRun.execKey, same]
  split
  · obtain ⟨status, out, part, left⟩ := result
    cases left with
    | none => rfl
    | some e =>
        dsimp only [Option.map_some]
        rw [if_neg (typed e rfl)]
  · rfl

/-- A stored number is counted. -/
theorem execCommand_counts (works : run.env.Works) (fetch : run.fetch = execKeyFetch)
    (counter : run.msg.command = .incr ∨ run.msg.command = .decr) {e : McEntry} {v : Nat}
    (type : e.type = .string) (number : stringToUint e.data = .ok v) :
    run.execCommand (some e) = ⟨.ok, counterReply run.msg e.cas (counterNext run.msg v), none,
      some { e with data := uint64ToString (counterNext run.msg v), cas := e.cas + 1 }⟩ := by
  rw [execKey_counter counter, counterReply]
  cases form : run.msg.binary with
  | true =>
      rw [if_pos rfl, KeyRun.execBinIncr, fetch, getKeyWrite_string works type]
      dsimp only
      rw [if_pos works.valued, number]
      dsimp only
      rw [KeyRun.storeUint, if_pos works.resized, works.send, if_pos rfl]
      rfl
  | false =>
      rw [if_neg (by simp), KeyRun.execIncr, fetch, getKeyWrite_string works type]
      dsimp only
      rw [if_pos works.valued, number]
      dsimp only
      rw [if_pos works.resized, works.send, if_neg (by simp)]
      rfl

/-- Another value is refused. -/
theorem execCommand_refuses (works : run.env.Works) (fetch : run.fetch = execKeyFetch)
    (counter : run.msg.command = .incr ∨ run.msg.command = .decr) {e : McEntry}
    (type : e.type = .string) (text : ∀ v, stringToUint e.data ≠ .ok v) :
    run.execCommand (some e) = ⟨.ok, counterError run.msg, none, some e⟩ := by
  rw [execKey_counter counter, counterError]
  cases number : stringToUint e.data with
  | ok v => exact absurd number (text v)
  | error status =>
      cases form : run.msg.binary with
      | true =>
          rw [if_pos rfl, KeyRun.execBinIncr, fetch, getKeyWrite_string works type]
          dsimp only
          rw [if_pos works.valued, number]
          dsimp only
          rw [works.send, if_pos rfl]
      | false =>
          rw [if_neg (by simp), KeyRun.execIncr, fetch, getKeyWrite_string works type]
          dsimp only
          rw [if_pos works.valued, number]
          dsimp only
          rw [works.send, if_neg (by simp)]

/-- A missing key is created by a binary request, whatever its expiration is. -/
theorem execCommand_misses (works : run.env.Works) (fetch : run.fetch = execKeyFetch)
    (counter : run.msg.command = .incr ∨ run.msg.command = .decr) :
    (run.execCommand none).entry =
      if run.msg.binary then
        some { type := .string, data := uint64ToString run.msg.ini, cas := 2 }
      else none := by
  rw [execKey_counter counter]
  cases run.msg.binary with
  | true =>
      rw [if_pos rfl, KeyRun.execBinIncr, fetch, getKeyWrite_none works]
      dsimp only
      rw [KeyRun.storeUint, if_pos works.resized]
      rfl
  | false =>
      rw [if_neg (by simp), KeyRun.execIncr, fetch, getKeyWrite_none works]
      rfl

/-- Both forms of both counters add and subtract the numbers that the recogniser reads. Only a
binary request creates a missing key. -/
theorem execIncr_meets (works : run.env.Works) (fetch : run.fetch = execKeyFetch)
    (counter : run.msg.command = .incr ∨ run.msg.command = .decr) (entry : Option McEntry) :
    IncrMeets IsUintText (run.msg.binary = true) run entry where
  counts e v found type number := by
    subst found
    apply execKey_typed (execCommand_counts works fetch counter type (stringToUint_iff.mpr number))
    intro e' left
    obtain rfl := Option.some.inj left
    simp [type]
  refuses e found type text := by
    subst found
    apply execKey_typed (execCommand_refuses works fetch counter type fun v number =>
      text v (stringToUint_iff.mp number))
    intro e' left
    obtain rfl := Option.some.inj left
    simp [type]
  misses found noCreate := by
    subst found
    have left := execCommand_misses works fetch counter
    rw [if_neg noCreate] at left
    rw [execKey_typed rfl (by simp [left]), left]
  initial found creates := by
    subst found
    have left := execCommand_misses works fetch counter
    rw [if_pos creates] at left
    refine ⟨2, ?_⟩
    rw [execKey_typed rfl (by simp [left]), left]

end Incr

/-- An increment by one of a table that works. -/
def incrRun (binary : Bool) (ttl : Nat) : KeyRun where
  fetch := execKeyFetch
  env := { currentStamp := 1 }
  msg := { MemcachedMsg.fresh with command := .incr, binary := binary, inc := 1, ttl := ttl }
  key := text "k"

/-- A key with a text. -/
def textEntry (s : String) : Option McEntry := some { type := .string, data := text s }

/-- Nine becomes ten. -/
theorem execIncr_meets_nine :
    IncrMeets IsUintText ((incrRun false 0).msg.binary = true) (incrRun false 0)
      (textEntry "9") :=
  execIncr_meets ⟨rfl, rfl, rfl, rfl, rfl, rfl⟩ rfl (.inl rfl) (textEntry "9")

/-- An expiration of all ones does not keep a binary request from creating its key, a negative text
counts as a number, and a number with twenty zeros in front of it does not. -/
theorem not_execIncr_decimal :
    ¬IncrMeets IsDecimalText False (incrRun true (2 ^ 32 - 1)) none ∧
      ¬IncrMeets IsDecimalText False (incrRun false 0) (textEntry "-2") ∧
      ¬IncrMeets IsDecimalText False (incrRun false 0) (textEntry "000000000000000000001") := by
  have works : ∀ binary ttl, (incrRun binary ttl).env.Works :=
    fun _ _ => ⟨rfl, rfl, rfl, rfl, rfl, rfl⟩
  apply And.intro
  · intro meets
    have missing := meets.misses rfl id
    rw [execKey_typed rfl (by
      rw [execCommand_misses (works true _) rfl (.inl rfl)]
      simp [incrRun]), execCommand_misses (works true _) rfl (.inl rfl)] at missing
    cases missing
  apply And.intro
  · intro meets
    have minusTwo : stringToUint (text "-2") = .ok (2 ^ 64 - 2) := by rfl
    have refused := meets.refuses _ rfl rfl (by
      intro v number
      exact absurd (number.2.1 minus (by decide)) (by decide))
    have counted := execKey_typed (@execCommand_counts (incrRun false 0) (works false 0) rfl
      (.inl rfl) { type := .string, data := text "-2" } _ rfl minusTwo) (by simp)
    have same := Option.some.inj (congrArg KeyResult.entry (refused.symm.trans counted))
    exact absurd (congrArg McEntry.cas same) (by decide)
  · intro meets
    have long : ∀ v, stringToUint (text "000000000000000000001") ≠ .ok v := by
      intro v
      have error : stringToUint (text "000000000000000000001") = .error .intOverflow := by rfl
      rw [error]
      simp
    have counted := meets.counts _ 1 rfl rfl (by
      refine ⟨by decide, ?_, by decide, by decide⟩
      simp [text, IsDigit])
    have refused := execKey_typed (@execCommand_refuses (incrRun false 0) (works false 0) rfl
      (.inl rfl) { type := .string, data := text "000000000000000000001" } rfl long) (by simp)
    have same := Option.some.inj (congrArg KeyResult.entry (counted.symm.trans refused))
    exact absurd (congrArg McEntry.cas same) (by decide)

end Raids.Memcached

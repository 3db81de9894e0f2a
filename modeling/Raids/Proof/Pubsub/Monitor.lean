import Raids.Construction.Pubsub.Monitor
import Raids.Proof.Msg.Pack2

namespace Raids.Pubsub

open Decimal

/-- The seconds have ten digits from the year 2001 to the year 2286. -/
def TenDigits (us : Nat) : Prop := 10 ^ 9 ≤ us / 1000000 ∧ us / 1000000 < 10 ^ 10

/-- The time in seconds, with six digits behind the point. -/
def timestamp (us : Nat) : Bytes :=
  uint64ToString (us / 1000000) ++ 46 :: (uint64ToString (us % 1000000 + 1000000)).drop 1

/-- The array of the command, its result or a null, and the time. -/
def monitorMessage (cmd : RedisMsg) (result : Bytes) (us : Nat) : Bytes :=
  text "*3\r\n" ++ cmd.pack ++ (if result = [] then text "*-1\r\n" else result) ++
    (text "$17\r\n" ++ timestamp us ++ crlf)

/-- The message is the array of the command, the bytes behind the start mark and a time of 17
characters, and every byte of the size that is published is written. -/
def MonitorsExactly (strm : Reply) (cmd : RedisMsg) (us : Nat) : Prop :=
  (timestamp us).length = 17 ∧
    (fwdMonitor strm cmd us).Holds (monitorMessage cmd (strm.bytes.drop strm.start) us)

/-- The start mark is inside no buffer. Where it is, the bytes that are read from the place with the
number of the buffer start with the ones behind the mark, and end within the message. -/
def MarkFits (strm : Reply) : Prop :=
  ∀ front base rest, strm.flushed = front ++ base :: rest → front.flatten.length < strm.start →
    strm.start < front.flatten.length + base.length →
    let d := strm.start - front.flatten.length
    base.drop d <+: strm.readFrom front.length base front.length d ∧ d ≤ strm.size + 24

section Copy

variable {strm : Output} {result start : Nat}

/-- The bytes of the buffers are the output. -/
theorem flatten_flushed (strm : Output) : strm.flushed.flatten = strm.bytes := by
  rw [Output.flushed, Output.bytes]
  split
  · simp
  · rename_i none
    rw [List.eq_nil_of_length_eq_zero (by omega : strm.out.length = 0), List.append_nil]

/-- Buffers behind the mark are copied one behind the other. -/
theorem copyResult_behind (iov : List Bytes) (i off : Nat) (msg : Block UInt8)
    (behind : start ≤ off) :
    copyResult strm result start iov i off msg =
      msg.copy (result + (off - start)) iov.flatten := by
  induction iov generalizing i off msg with
  | nil => simp [copyResult]
  | cons base iov ih =>
      rw [copyResult]
      dsimp only
      rw [if_pos behind, ih _ _ _ (by omega), List.flatten_cons, ← Block.copy_append]
      congr 1
      omega

/-- Buffers in front of the mark are skipped. -/
theorem copyResult_front (front rest : List Bytes) (i off : Nat) (msg : Block UInt8)
    (before : off + front.flatten.length ≤ start) :
    copyResult strm result start (front ++ rest) i off msg =
      copyResult strm result start rest (i + front.length) (off + front.flatten.length) msg := by
  induction front generalizing i off with
  | nil => simp
  | cons base front ih =>
      rw [List.flatten_cons, List.length_append] at before
      rw [List.cons_append, copyResult]
      dsimp only
      by_cases empty : base.length = 0
      · obtain rfl := List.eq_nil_of_length_eq_zero empty
        have tail : copyResult strm result start (front ++ rest) (i + 1)
            (off + ([] : Bytes).length) msg =
              copyResult strm result start rest (i + (front.length + 1))
                (off + ([] ++ front.flatten).length) msg := by
          rw [ih _ _ (by simpa using before), List.length_nil, List.nil_append, Nat.add_zero]
          congr 1
          omega
        rw [Block.copy_nil, List.length_cons, List.flatten_cons, ← tail]
        split
        · rfl
        · rw [if_neg (by rw [List.length_nil]; omega)]
      · rw [if_neg (by omega), if_neg (by omega), ih _ _ (by omega), List.flatten_cons]
        simp only [List.length_cons, List.length_append]
        congr 1 <;> omega

/-- A mark that is not behind the last byte is in a buffer. -/
theorem exists_mark {iov : List Bytes} (inside : start < iov.flatten.length) :
    ∃ front base rest, iov = front ++ base :: rest ∧ front.flatten.length ≤ start ∧
      start < front.flatten.length + base.length := by
  induction iov generalizing start with
  | nil => simp at inside
  | cons base iov ih =>
      rw [List.flatten_cons, List.length_append] at inside
      by_cases here : start < base.length
      · exact ⟨[], base, iov, rfl, Nat.zero_le _, by simpa using here⟩
      · obtain ⟨front, base', rest, rfl, before, within⟩ :=
          @ih (start - base.length) (by omega)
        refine ⟨base :: front, base', rest, rfl, ?_, ?_⟩ <;>
          simp only [List.flatten_cons, List.length_append] <;> omega

variable {front rest : List Bytes} {base : Bytes}

/-- A mark at the start of a buffer. -/
theorem copyResult_boundary (msg : Block UInt8) (mark : start = front.flatten.length) :
    copyResult strm result start (front ++ base :: rest) 0 0 msg =
      msg.copy result (base :: rest).flatten := by
  rw [copyResult_front _ _ _ _ _ (by omega), copyResult_behind _ _ _ _ (by omega)]
  congr 1
  omega

/-- A mark inside a buffer. -/
theorem copyResult_inside (msg : Block UInt8) (before : front.flatten.length < start)
    (within : start < front.flatten.length + base.length) :
    copyResult strm result start (front ++ base :: rest) 0 0 msg =
      (msg.copy result (strm.readFrom front.length base front.length
        (start - front.flatten.length))).copy
          (result + (base.drop (start - front.flatten.length)).length) rest.flatten := by
  rw [copyResult_front _ _ _ _ _ (by omega), copyResult]
  dsimp only
  rw [if_neg (by omega), if_pos (by omega), copyResult_behind _ _ _ _ (by omega), List.length_drop,
    Nat.zero_add, Nat.zero_add,
    show base.length - (front.flatten.length + base.length - start) =
      start - front.flatten.length by omega,
    show front.flatten.length + base.length - start =
      base.length - (start - front.flatten.length) by omega]

/-- The result behind a mark in a buffer. -/
theorem drop_bytes (split : strm.flushed = front ++ base :: rest)
    (before : front.flatten.length ≤ start) (within : start < front.flatten.length + base.length) :
    strm.bytes.drop start = base.drop (start - front.flatten.length) ++ rest.flatten := by
  rw [← flatten_flushed, split, List.flatten_append, List.flatten_cons, List.drop_append,
    List.drop_of_length_le before, List.nil_append, List.drop_append_of_le_length (by omega)]

end Copy

section Stamp

variable {us : Nat}

theorem length_seconds (digits : TenDigits us) : (uint64ToString (us / 1000000)).length = 10 := by
  have most := (length_decimal_le_iff (k := 10) (by decide)).mpr digits.2
  have least := (length_decimal_le_iff (n := us / 1000000) (k := 9) (by decide)).not.mpr
    (not_lt.mpr digits.1)
  rw [uint64ToString]
  omega

theorem length_microseconds (us : Nat) :
    (uint64ToString (us % 1000000 + 1000000)).length = 7 := by
  have most := (length_decimal_le_iff (n := us % 1000000 + 1000000) (k := 7) (by decide)).mpr
    (by omega)
  have least := (length_decimal_le_iff (n := us % 1000000 + 1000000) (k := 6) (by decide)).not.mpr
    (by omega)
  rw [uint64ToString]
  omega

theorem length_timestamp (digits : TenDigits us) : (timestamp us).length = 17 := by
  rw [timestamp, List.length_append, length_seconds digits, List.length_cons, List.length_drop,
    length_microseconds]

/-- The stamp with its header and its line end. -/
def stampBytes (us : Nat) : Bytes := text "$17\r\n" ++ timestamp us ++ crlf

theorem length_stampBytes (digits : TenDigits us) : (stampBytes us).length = 24 := by
  rw [stampBytes, List.length_append, List.length_append, length_timestamp digits]
  rfl

/-- The pieces of the stamp are one copy. -/
theorem copy_stamp (digits : TenDigits us) (msg : Block UInt8) (stamp : Nat) :
    (((((msg.copy stamp (text "$17\r\n")).copy (stamp + 5) (uint64ToString (us / 1000000))).copy
      (stamp + 15) (uint64ToString (us % 1000000 + 1000000))).copy (stamp + 15) [46]).copy
        (stamp + 22) crlf) = msg.copy stamp (stampBytes us) := by
  obtain ⟨c, micros, seven⟩ := List.exists_cons_of_length_pos
    (show 0 < (uint64ToString (us % 1000000 + 1000000)).length by
      rw [length_microseconds]; decide)
  have head : stamp + 5 = stamp + (text "$17\r\n").length := rfl
  have ten : stamp + 15 =
      stamp + (text "$17\r\n" ++ uint64ToString (us / 1000000)).length := by
    rw [List.length_append, length_seconds digits]
    rfl
  have last : stamp + 22 = stamp + (text "$17\r\n" ++ timestamp us).length := by
    rw [List.length_append, length_timestamp digits]
    rfl
  have time : timestamp us = uint64ToString (us / 1000000) ++ 46 :: micros := by
    rw [timestamp, seven, List.drop_one, List.tail_cons]
  rw [seven, Block.copy_overwrite, head, Block.copy_append, ten, Block.copy_append,
    List.append_assoc, ← time, last, Block.copy_append, stampBytes]

end Stamp

section Message

variable {strm : Reply} {cmd : RedisMsg} {us : Nat}

/-- The message is the command, the copied result and the stamp. -/
theorem fwdMonitor_eq (digits : TenDigits us) :
    fwdMonitor strm cmd us =
      (if strm.size = 0 then
        ((Block.alloc (monitorSize strm cmd)).copy 0 (text "*3\r\n" ++ cmd.pack)).copy
          (4 + cmd.packSize) (text "*-1\r\n")
      else copyResult strm.toOutput (4 + cmd.packSize) strm.start strm.flushed 0 0
        ((Block.alloc (monitorSize strm cmd)).copy 0 (text "*3\r\n" ++ cmd.pack))).copy
          (4 + cmd.packSize + if strm.size = 0 then 5 else strm.size) (stampBytes us) := by
  have head := Block.copy_append (Block.alloc (monitorSize strm cmd)) 0 (text "*3\r\n") cmd.pack
  rw [fwdMonitor, ← head]
  exact copy_stamp digits _ _

theorem length_head (counted : cmd.Counted) :
    (text "*3\r\n" ++ cmd.pack).length = 4 + cmd.packSize := by
  rw [List.length_append, (sized counted).length]
  rfl

theorem length_result : (strm.bytes.drop strm.start).length = strm.size := by
  rw [List.length_drop]
  rfl

/-- A mark at the end of the output, or at the start of a buffer. -/
theorem holds_boundary (counted : cmd.Counted) (digits : TenDigits us)
    (copied : ∀ msg, strm.size ≠ 0 →
      copyResult strm.toOutput (4 + cmd.packSize) strm.start strm.flushed 0 0 msg =
        msg.copy (4 + cmd.packSize) (strm.bytes.drop strm.start)) :
    (fwdMonitor strm cmd us).Holds (monitorMessage cmd (strm.bytes.drop strm.start) us) := by
  have head := length_head counted
  have result := @length_result strm
  have stamp := length_stampBytes digits
  have whole : ∀ middle : Bytes, middle.length = (if strm.size = 0 then 5 else strm.size) →
      ((((Block.alloc (monitorSize strm cmd)).copy 0 (text "*3\r\n" ++ cmd.pack)).copy
        (4 + cmd.packSize) middle).copy
          (4 + cmd.packSize + if strm.size = 0 then 5 else strm.size) (stampBytes us)).Holds
        (text "*3\r\n" ++ cmd.pack ++ middle ++ stampBytes us) := by
    intro middle long
    have size : monitorSize strm cmd =
        (text "*3\r\n" ++ cmd.pack ++ middle ++ stampBytes us).length := by
      rw [List.length_append, List.length_append, head, long, stamp, monitorSize]
      by_cases none : strm.size = 0
      · simp [none]
      · simp [none]
    have second := Block.copy_append (Block.alloc (monitorSize strm cmd)) 0
      (text "*3\r\n" ++ cmd.pack) middle
    have third := Block.copy_append (Block.alloc (monitorSize strm cmd)) 0
      (text "*3\r\n" ++ cmd.pack ++ middle) (stampBytes us)
    rw [Nat.zero_add, head] at second
    rw [Nat.zero_add, List.length_append, head, long] at third
    rw [second, third, size]
    exact Block.holds_copy _
  rw [fwdMonitor_eq digits, monitorMessage]
  by_cases none : strm.size = 0
  · have empty : strm.bytes.drop strm.start = [] :=
      List.eq_nil_of_length_eq_zero (result.trans none)
    rw [if_pos none, if_pos empty]
    exact whole _ (by rw [if_pos none]; rfl)
  · have given : strm.bytes.drop strm.start ≠ [] := fun empty => none (by
      rw [← result, empty]
      rfl)
    rw [if_neg none, if_neg given, copied _ none]
    exact whole _ (by rw [if_neg none, result])

/-- A mark inside a buffer. -/
theorem holds_inside (counted : cmd.Counted) (digits : TenDigits us) {front rest : List Bytes}
    {base : Bytes} (split : strm.flushed = front ++ base :: rest)
    (before : front.flatten.length < strm.start)
    (within : strm.start < front.flatten.length + base.length) :
    (fwdMonitor strm cmd us).Holds (monitorMessage cmd (strm.bytes.drop strm.start) us) ↔
      base.drop (strm.start - front.flatten.length) <+:
          strm.readFrom front.length base front.length (strm.start - front.flatten.length) ∧
        strm.start - front.flatten.length ≤ strm.size + 24 := by
  have head := length_head counted
  have result := @length_result strm
  have stamp := length_stampBytes digits
  have bytes := drop_bytes split before.le within
  have some : strm.size ≠ 0 := by
    rw [← result, bytes, List.length_append, List.length_drop]
    omega
  have given : strm.bytes.drop strm.start ≠ [] := fun empty => some (by
    rw [← result, empty]
    rfl)
  have sizes : strm.size =
      (base.drop (strm.start - front.flatten.length)).length + rest.flatten.length := by
    rw [← result, bytes, List.length_append]
  have read : (strm.readFrom front.length base front.length
      (strm.start - front.flatten.length)).length = strm.start - front.flatten.length := by
    simp [Output.readFrom]
  rw [fwdMonitor_eq digits, monitorMessage, if_neg some, if_neg some, if_neg given, split,
    copyResult_inside _ before within, bytes]
  have tail := Block.copy_append
    (((Block.alloc (monitorSize strm cmd)).copy 0 (text "*3\r\n" ++ cmd.pack)).copy
      (4 + cmd.packSize) (strm.readFrom front.length base front.length
        (strm.start - front.flatten.length)))
    (4 + cmd.packSize + (base.drop (strm.start - front.flatten.length)).length) rest.flatten
    (stampBytes us)
  rw [Nat.add_assoc (4 + cmd.packSize), ← sizes] at tail
  have overlap := Block.holds_overlap
    (show monitorSize strm cmd = (text "*3\r\n" ++ cmd.pack).length +
        (base.drop (strm.start - front.flatten.length)).length +
        (rest.flatten ++ stampBytes us).length by
      rw [head, List.length_append, stamp, monitorSize, if_pos some]
      omega)
    (show 0 < (strm.readFrom front.length base front.length
        (strm.start - front.flatten.length)).length by rw [read]; omega)
  rw [head, read, List.length_append, stamp, ← Nat.add_assoc, ← sizes] at overlap
  have pieces : text "*3\r\n" ++ cmd.pack ++
      (base.drop (strm.start - front.flatten.length) ++ rest.flatten) ++
        (text "$17\r\n" ++ timestamp us ++ crlf) =
      text "*3\r\n" ++ cmd.pack ++ base.drop (strm.start - front.flatten.length) ++
        (rest.flatten ++ stampBytes us) := by
    rw [← stampBytes]
    simp only [List.append_assoc]
  rw [tail, pieces]
  exact overlap

end Message

/-- The message for the monitors is exact under this condition on the start mark only. -/
theorem fwdMonitor_exact (strm : Reply) {cmd : RedisMsg} (counted : cmd.Counted) {us : Nat}
    (digits : TenDigits us) : MonitorsExactly strm cmd us ↔ MarkFits strm := by
  rw [MonitorsExactly, and_iff_right (length_timestamp digits)]
  constructor
  · intro holds front base rest split before within
    exact (holds_inside counted digits split before within).mp holds
  · intro fits
    by_cases none : strm.size = 0
    · exact holds_boundary counted digits fun _ some => absurd none some
    · have inside : strm.start < strm.flushed.flatten.length := by
        rw [flatten_flushed]
        rw [Reply.size, Output.pending] at none
        omega
      obtain ⟨front, base, rest, split, before, within⟩ := exists_mark inside
      rcases Nat.lt_or_eq_of_le before with strict | boundary
      · exact (holds_inside counted digits split strict within).mpr
          (fits front base rest split strict within)
      · refine holds_boundary counted digits fun msg _ => ?_
        rw [split, copyResult_boundary msg boundary.symm, drop_bytes split before within, ← boundary,
          Nat.sub_self, List.drop_zero, List.flatten_cons]

/-- The message of a ping. -/
def ping : RedisMsg := .array 1 [mkStr (text "ping")]

theorem counted_ping : ping.Counted := by
  refine .array 1 _ (by decide) fun m member => ?_
  rw [List.mem_singleton.mp member]
  exact .string _ _ _ (by decide) (by decide)

/-- A reply that starts with its buffer. -/
theorem fwdMonitor_exact_boundary :
    MonitorsExactly ⟨⟨[text "+OK\r\n"], text ":1\r\n", fun _ _ => 0⟩, 5, by decide⟩ ping
      1578737366890420 := by
  refine (fwdMonitor_exact _ counted_ping ⟨by decide, by decide⟩).mpr ?_
  intro front base rest split before within
  have flushed : [text "+OK\r\n", text ":1\r\n"] = front ++ base :: rest := split
  have five : (text "+OK\r\n").length = 5 := rfl
  rcases front with _ | ⟨first, _ | ⟨second, front⟩⟩
  · obtain ⟨rfl, -⟩ := List.cons.inj flushed
    exact absurd within (by decide)
  · obtain ⟨rfl, -⟩ := List.cons.inj flushed
    exact absurd before (by decide)
  · simp at flushed

/-- A reply behind another one in the tail buffer is not copied in whole. -/
theorem not_fwdMonitor_exact :
    ¬MonitorsExactly ⟨⟨[], text ":1\r\n+OK\r\n", fun _ _ => 0⟩, 4, by decide⟩ ping
      1578737366890420 := by
  intro monitors
  have fits := (@holds_inside ⟨⟨[], text ":1\r\n+OK\r\n", fun _ _ => 0⟩, 4, by decide⟩ ping
    1578737366890420 counted_ping ⟨by decide, by decide⟩ [] [] (text ":1\r\n+OK\r\n") rfl
    (by decide) (by decide)).mp monitors.2
  exact absurd fits.1.length_le (by decide)

end Raids.Pubsub

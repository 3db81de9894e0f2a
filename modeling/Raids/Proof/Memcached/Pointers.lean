import Raids.Construction.Memcached.Unpack

namespace Raids.Memcached
open BigEndian

/-- A pointer lies inside the bytes at `base` and its argument is what stands there. -/
def MemcachedArgs.Inside (base : Nat) (bytes : Bytes) (p : MemcachedArgs) : Prop :=
  ∃ before after, bytes = before ++ p.str ++ after ∧ p.start = base + before.length

/-- All pointers that a message holds. -/
def MemcachedMsg.pointers (m : MemcachedMsg) : List MemcachedArgs := m.args ++ m.msg.toList

namespace MemcachedArgs

/-- A slice of the bytes is inside them. -/
theorem inside_slice (base : Nat) {bytes : Bytes} {offset length : Nat}
    (fits : offset + length ≤ bytes.length) :
    Inside base bytes ⟨base + offset, (bytes.drop offset).take length⟩ := by
  refine ⟨bytes.take offset, bytes.drop (offset + length), ?_, ?_⟩
  · rw [List.append_assoc, ← List.drop_drop, List.take_append_drop, List.take_append_drop]
  · rw [List.length_take, Nat.min_eq_left (by omega)]

/-- A slice of a prefix is a slice of the whole. -/
theorem inside_take_slice (base : Nat) {bytes : Bytes} {total : Nat} (offset : Nat) {length : Nat}
    (fits : offset + length ≤ total) (whole : total ≤ bytes.length) :
    Inside base (bytes.take total) ⟨base + offset, (bytes.drop offset).take length⟩ := by
  have size : (bytes.take total).length = total := by
    rw [List.length_take, Nat.min_eq_left whole]
  have same : ((bytes.take total).drop offset).take length = (bytes.drop offset).take length := by
    rw [List.drop_take, List.take_take, Nat.min_eq_left (by omega)]
  rw [← same]
  exact inside_slice base (by omega)

/-- More bytes in front and behind keep a pointer inside. -/
theorem Inside.extend {base : Nat} {middle : Bytes} {p : MemcachedArgs} {front : Bytes}
    (inside : Inside (base + front.length) middle p) (back : Bytes) :
    Inside base (front ++ middle ++ back) p := by
  obtain ⟨before, after, split, start⟩ := inside
  refine ⟨front ++ before, after ++ back, ?_, ?_⟩
  · rw [split]
    simp only [List.append_assoc]
  · rw [start, List.length_append, Nat.add_assoc]

theorem Inside.length_le {base : Nat} {bytes : Bytes} {p : MemcachedArgs}
    (inside : Inside base bytes p) : p.start + p.str.length ≤ base + bytes.length := by
  obtain ⟨before, after, split, start⟩ := inside
  rw [split, start, List.length_append, List.length_append]
  omega

end MemcachedArgs

open MemcachedArgs

/-- A body that is complete has a length, and its pointers stay inside that length. -/
structure BinBody.Takes (parsed : Option BinBody) (b : MemcachedBinHdr) (ptr : Nat) (body : Bytes)
    (length : Nat) : Prop where
  short : body.length < b.datalen → parsed = none
  complete : b.datalen ≤ body.length → ∃ result, parsed = some ⟨length, result⟩ ∧
    ∀ m, result = .ok m → ∀ p ∈ m.pointers, p.Inside ptr (body.take length)

section BinBody

variable (m : MemcachedMsg) (b : MemcachedBinHdr) (ptr : Nat) (body : Bytes)

/-- A parser takes a body when its accepted slices lie inside the length it reports. -/
theorem BinBody.takes_of_slices {length : Nat} {result : Except MemcachedStatus MemcachedMsg}
    (slices : b.datalen ≤ body.length → ∀ m, result = .ok m → ∀ p ∈ m.pointers,
      ∃ offset size, p = ⟨ptr + offset, (body.drop offset).take size⟩ ∧
        offset + size ≤ length ∧ length ≤ body.length) :
    BinBody.Takes (if body.length < b.datalen then none else some ⟨length, result⟩) b ptr body
      length := by
  apply BinBody.Takes.mk
  · intro short
    rw [if_pos short]
  · intro complete
    rw [if_neg (Nat.not_lt.mpr complete)]
    refine ⟨result, rfl, ?_⟩
    intro parsed ok p member
    obtain ⟨offset, size, same, fits, whole⟩ := slices complete parsed ok p member
    rw [same]
    exact inside_take_slice ptr offset fits whole

namespace MemcachedMsg

/-- The key and the data of a body are slices of it. -/
theorem parseBinStore_takes :
    BinBody.Takes (m.parseBinStore b ptr body) b ptr body b.datalen := by
  apply BinBody.takes_of_slices
  intro complete parsed ok p member
  split at ok
  · cases ok
  · rename_i shape
    injection ok with same
    subst same
    simp only [pointers, binKey, Option.toList_some, List.mem_append, List.mem_singleton] at member
    rcases member with rfl | rfl
    · exact ⟨8, b.keylen, rfl, by omega, complete⟩
    · exact ⟨8 + b.keylen, b.datalen - (b.extralen + b.keylen), by rw [Nat.add_assoc], by omega,
        complete⟩

theorem parseBinPend_takes :
    BinBody.Takes (m.parseBinPend b ptr body) b ptr body b.datalen := by
  apply BinBody.takes_of_slices
  intro complete parsed ok p member
  split at ok
  · cases ok
  · rename_i shape
    injection ok with same
    subst same
    simp only [pointers, binKey, Option.toList_some, List.mem_append, List.mem_singleton] at member
    rcases member with rfl | rfl
    · exact ⟨0, b.keylen, rfl, by omega, complete⟩
    · exact ⟨b.keylen, b.datalen - b.keylen, rfl, by omega, complete⟩

/-- A retrieval reports the length of its key. -/
theorem parseBinRetr_takes :
    BinBody.Takes (m.parseBinRetr b ptr body) b ptr body b.keylen := by
  apply BinBody.takes_of_slices
  intro complete parsed ok p member
  split at ok
  · cases ok
  · rename_i shape
    injection ok with same
    subst same
    simp only [pointers, binKey, Option.toList_none, List.append_nil, List.mem_singleton] at member
    subst member
    exact ⟨0, b.keylen, rfl, by omega, by omega⟩

theorem parseBinTouch_takes :
    BinBody.Takes (m.parseBinTouch b ptr body) b ptr body b.datalen := by
  apply BinBody.takes_of_slices
  intro complete parsed ok p member
  split at ok
  · cases ok
  · rename_i shape
    injection ok with same
    subst same
    simp only [pointers, binKey, Option.toList_none, List.append_nil, List.mem_singleton] at member
    subst member
    exact ⟨4, b.keylen, rfl, by omega, complete⟩

theorem parseBinIncr_takes :
    BinBody.Takes (m.parseBinIncr b ptr body) b ptr body b.datalen := by
  apply BinBody.takes_of_slices
  intro complete parsed ok p member
  split at ok
  · cases ok
  · rename_i shape
    injection ok with same
    subst same
    simp only [pointers, binKey, Option.toList_none, List.append_nil, List.mem_singleton] at member
    subst member
    exact ⟨20, b.keylen, rfl, by omega, complete⟩

theorem parseBinOp_takes (extraSz : Nat) :
    BinBody.Takes (m.parseBinOp b body extraSz) b ptr body b.datalen := by
  apply BinBody.takes_of_slices
  intro complete parsed ok p member
  split at ok
  · cases ok
  · injection ok with same
    subst same
    simp [pointers] at member

end MemcachedMsg

theorem parseBinUnknown_takes :
    BinBody.Takes (parseBinUnknown m b body) b ptr body b.datalen := by
  have takes := m.parseBinOp_takes b ptr body 0
  rw [parseBinUnknown]
  apply BinBody.Takes.mk
  · intro short
    rw [takes.short short, Option.map_none]
  · intro complete
    obtain ⟨result, same, _⟩ := takes.complete complete
    rw [same, Option.map_some]
    cases result with
    | ok parsed => exact ⟨.error .badBinCmd, rfl, by simp⟩
    | error status => exact ⟨.error status, rfl, by simp⟩

/-- GET and DELETE are the retrievals. -/
def MemcachedCmd.isRetrieval : MemcachedCmd → Bool
  | .get | .delete => true
  | _ => false

/-- The length that the parser of a command reports for a complete body. -/
def takenLength (command : MemcachedCmd) (b : MemcachedBinHdr) : Nat :=
  if command.isRetrieval then b.keylen else b.datalen

theorem parseBin_takes :
    BinBody.Takes (parseBin m b ptr body) b ptr body (takenLength m.command b) := by
  rw [parseBin, takenLength]
  cases m.command with
  | get | delete => exact m.parseBinRetr_takes b ptr body
  | set | add | replace => exact m.parseBinStore_takes b ptr body
  | append | prepend => exact m.parseBinPend_takes b ptr body
  | gat | touch => exact m.parseBinTouch_takes b ptr body
  | incr | decr => exact m.parseBinIncr_takes b ptr body
  | flushAll | verbosity => exact m.parseBinOp_takes b ptr body 4
  | version | quit | noOp => exact m.parseBinOp_takes b ptr body 0
  | _ => exact parseBinUnknown_takes m b ptr body

end BinBody

/-- The fields of the header that tell the frame of a binary request. -/
def bodyLength (s : Bytes) : Nat := (readBinHdr s).datalen

def keyLength (s : Bytes) : Nat := (readBinHdr s).keylen

def binCommand (s : Bytes) : MemcachedCmd := (binToAsciiCmd (readBinHdr s).opcode).1

/-- A binary request is complete with its header and its body. -/
def CompleteBin (s : Bytes) : Prop := MemcachedBinHdr.size + bodyLength s ≤ s.length

theorem binMsg_pointers (s : Bytes) : (binMsg (readBinHdr s)).pointers = [] := rfl

theorem unpackBin_short {s : Bytes} (buflen j : Nat) (short : ¬CompleteBin s) :
    (unpackBin buflen j s).status = .msgPartial := by
  rw [unpackBin]
  split
  · rfl
  · rename_i header
    have takes := parseBin_takes (binMsg (readBinHdr s)) (readBinHdr s)
      (j + MemcachedBinHdr.size) (s.drop MemcachedBinHdr.size)
    have less : (s.drop MemcachedBinHdr.size).length < (readBinHdr s).datalen := by
      rw [CompleteBin, bodyLength] at short
      rw [List.length_drop]
      omega
    simp only [takes.short less]

/-- A complete binary request is taken; only a retrieval takes another length than its body. -/
theorem unpackBin_complete {s : Bytes} (buflen j : Nat) (complete : CompleteBin s) :
    (unpackBin buflen j s).status = .ok ∧
      (unpackBin buflen j s).length =
        j + MemcachedBinHdr.size + takenLength (binCommand s) (readBinHdr s) ∧
      ∀ p ∈ (unpackBin buflen j s).msg.pointers, p.Inside (j + MemcachedBinHdr.size)
        ((s.drop MemcachedBinHdr.size).take (takenLength (binCommand s) (readBinHdr s))) := by
  rw [CompleteBin, bodyLength] at complete
  have takes := parseBin_takes (binMsg (readBinHdr s)) (readBinHdr s)
    (j + MemcachedBinHdr.size) (s.drop MemcachedBinHdr.size)
  have enough : (readBinHdr s).datalen ≤ (s.drop MemcachedBinHdr.size).length := by
    rw [List.length_drop]
    omega
  obtain ⟨result, same, inside⟩ := takes.complete enough
  rw [unpackBin, if_neg (by omega)]
  simp only [same]
  cases result with
  | ok m => exact ⟨rfl, rfl, inside m rfl⟩
  | error status => exact ⟨rfl, rfl, by simp [MemcachedMsg.pointers, binMsg, MemcachedMsg.fresh]⟩

/-- The words of a line are cut from it; the open word ends where the rest of the line starts. -/
theorem wordsFrom_inside {base : Nat} (done line : Bytes) {start : Option MemcachedArgs}
    (opened : ∀ word, start = some word →
      ∃ before, done = before ++ word.str ∧ word.start = base + before.length) :
    ∀ p ∈ wordsFrom start (base + done.length) line, p.Inside base (done ++ line) := by
  have closed : ∀ more, ∀ p ∈ start.toList, p.Inside base (done ++ more) := by
    intro more p member
    obtain ⟨before, split, place⟩ := opened p (by simpa using member)
    exact ⟨before, more, by rw [split], place⟩
  induction line generalizing done start with
  | nil =>
      intro p member
      exact closed [] p member
  | cons c line ih =>
      have regroup : done ++ c :: line = (done ++ [c]) ++ line := by simp
      have position : base + done.length + 1 = base + (done ++ [c]).length := by
        rw [List.length_append, List.length_singleton, Nat.add_assoc]
      have step : ∀ {next : Option MemcachedArgs},
          (∀ word, next = some word →
            ∃ before, done ++ [c] = before ++ word.str ∧ word.start = base + before.length) →
          ∀ p ∈ wordsFrom next (base + done.length + 1) line, p.Inside base (done ++ c :: line) := by
        intro next openNext p member
        rw [position] at member
        rw [regroup]
        apply ih (done ++ [c]) openNext _ p member
        intro more q open_
        obtain ⟨before, split, place⟩ := openNext q (by simpa using open_)
        exact ⟨before, more, by rw [split], place⟩
      intro p member
      unfold wordsFrom at member
      split at member
      · rcases List.mem_append.mp member with now | later
        · exact closed _ p now
        · exact step (by simp) p later
      · split at member
        · apply step _ p member
          intro word same
          injection same with same
          subst same
          exact ⟨done, rfl, rfl⟩
        · rename_i word
          obtain ⟨before, split, place⟩ := opened word rfl
          apply step _ p member
          intro longer same
          injection same with same
          subst same
          exact ⟨before, by rw [split, List.append_assoc], place⟩

theorem parseMcargs_inside (room : Nat → Bool) (pos : Nat) (line : Bytes) :
    ∀ p ∈ parseMcargs room pos line, p.Inside pos line := by
  intro p member
  rw [parseMcargs] at member
  split at member
  · have noWord : ∀ word : MemcachedArgs, none = some word →
        ∃ before : Bytes, [] = before ++ word.str ∧ word.start = pos + before.length := by simp
    exact wordsFrom_inside [] line noWord p member
  · simp at member

/-- The argument parsers change no pointer and no command, and their failures are failures. -/
def Keeps (m : MemcachedMsg) : Except MemcachedStatus MemcachedMsg → Prop
  | .ok parsed => parsed.args = m.args ∧ parsed.msg = none ∧ parsed.command = m.command
  | .error status => status ≠ .ok

theorem getU64_error {str : Bytes} {status : MemcachedStatus}
    (failed : getU64 str = .error status) : status ≠ .ok := by
  rw [getU64] at failed
  split at failed <;> simp_all [Ne, eq_comm]

theorem getU32_error {str : Bytes} {status : MemcachedStatus}
    (failed : getU32 str = .error status) : status ≠ .ok := by
  rw [getU32] at failed
  cases number : getU64 str with
  | error first =>
      rw [number] at failed
      injection failed with same
      exact same ▸ getU64_error number
  | ok val =>
      simp only [number] at failed
      split at failed
      · injection failed with same
        rw [← same]
        decide
      · cases failed

namespace Keeps

variable {m : MemcachedMsg}

theorem bind {α : Type} {first : Except MemcachedStatus α}
    {next : α → Except MemcachedStatus MemcachedMsg}
    (fails : ∀ status, first = .error status → status ≠ .ok)
    (each : ∀ a, Keeps m (next a)) : Keeps m (first >>= next) := by
  cases first with
  | error status => exact fails status rfl
  | ok a => exact each a

theorem ite {condition : Prop} [Decidable condition]
    {first second : Except MemcachedStatus MemcachedMsg}
    (yes : Keeps m first) (no : Keeps m second) : Keeps m (if condition then first else second) := by
  split
  · exact yes
  · exact no

theorem badArgs : Keeps m (.error .badArgs) := by
  show MemcachedStatus.badArgs ≠ .ok
  decide

theorem u64 {str : Bytes} {next : Nat → Except MemcachedStatus MemcachedMsg}
    (each : ∀ val, Keeps m (next val)) : Keeps m (getU64 str >>= next) :=
  bind (fun _ => getU64_error) each

theorem u32 {str : Bytes} {next : Nat → Except MemcachedStatus MemcachedMsg}
    (each : ∀ val, Keeps m (next val)) : Keeps m (getU32 str >>= next) :=
  bind (fun _ => getU32_error) each

end Keeps

namespace MemcachedMsg

variable (m : MemcachedMsg)

theorem parseStore_keeps : Keeps m m.parseStore :=
  Keeps.ite .badArgs <| .u32 fun _ => .u64 fun _ => .u64 fun _ => ⟨rfl, rfl, rfl⟩

theorem parseCas_keeps : Keeps m m.parseCas :=
  Keeps.ite .badArgs <| .u32 fun _ => .u64 fun _ => .u64 fun _ => .u64 fun _ => ⟨rfl, rfl, rfl⟩

theorem parseRetr_keeps : Keeps m m.parseRetr :=
  Keeps.ite .badArgs ⟨rfl, rfl, rfl⟩

theorem parseGat_keeps : Keeps m m.parseGat :=
  Keeps.ite .badArgs <| .u64 fun _ => ⟨rfl, rfl, rfl⟩

theorem parseDel_keeps : Keeps m m.parseDel :=
  Keeps.ite .badArgs ⟨rfl, rfl, rfl⟩

theorem parseIncr_keeps : Keeps m m.parseIncr :=
  Keeps.ite .badArgs <| .u64 fun _ => ⟨rfl, rfl, rfl⟩

theorem parseTouch_keeps : Keeps m m.parseTouch :=
  Keeps.ite .badArgs <| .u64 fun _ => ⟨rfl, rfl, rfl⟩

end MemcachedMsg

theorem parseText_keeps {m : MemcachedMsg} (noData : m.msg = none) : Keeps m (parseText m) := by
  rw [parseText]
  cases m.command with
  | set | add | append | replace | prepend => exact m.parseStore_keeps
  | cas => exact m.parseCas_keeps
  | get | gets => exact m.parseRetr_keeps
  | gat | gats => exact m.parseGat_keeps
  | delete => exact m.parseDel_keeps
  | touch => exact m.parseTouch_keeps
  | incr | decr => exact m.parseIncr_keeps
  | _ => exact ⟨rfl, noData, rfl⟩

theorem parseLine_error {room : Nat → Bool} {k : Nat} {line s : Bytes} {status : MemcachedStatus}
    (failed : parseLine room k line s = .error status) : status ≠ .ok := by
  rw [parseLine] at failed
  dsimp only at failed
  split at failed
  · injection failed with same
    rw [← same]
    decide
  · split at failed
    · injection failed with same
      rw [← same]
      decide
    · rename_i command _
      have keeps := parseText_keeps (m := { MemcachedMsg.fresh with
        command
        args := parseMcargs room (k + (line.takeWhile (· ≠ space)).length)
          (line.drop (line.takeWhile (· ≠ space)).length) }) rfl
      rwa [failed] at keeps

/-- The pointers of a parsed line stay inside the line. -/
theorem parseLine_inside {room : Nat → Bool} {k : Nat} {line s : Bytes} {m : MemcachedMsg}
    (ok : parseLine room k line s = .ok m) : ∀ p ∈ m.pointers, p.Inside k line := by
  rw [parseLine] at ok
  dsimp only at ok
  split at ok
  · cases ok
  · cases found : keyword s with
    | none => simp [found] at ok
    | some command =>
        simp only [found] at ok
        have keeps := parseText_keeps (m := { MemcachedMsg.fresh with
          command
          args := parseMcargs room (k + (line.takeWhile (· ≠ space)).length)
            (line.drop (line.takeWhile (· ≠ space)).length) }) rfl
        rw [ok] at keeps
        obtain ⟨args, msg, _⟩ := keeps
        intro p member
        rw [MemcachedMsg.pointers, args, msg] at member
        have word : (line.takeWhile (· ≠ space)).length ≤ line.length :=
          (List.takeWhile_sublist _).length_le
        have front : (line.take (line.takeWhile (· ≠ space)).length).length =
            (line.takeWhile (· ≠ space)).length := by
          rw [List.length_take, Nat.min_eq_left word]
        rw [Option.toList_none, List.append_nil] at member
        have inside := parseMcargs_inside room _ _ p member
        rw [← front] at inside
        have extended := inside.extend []
        rwa [front, List.append_nil, List.take_append_drop] at extended

end Raids.Memcached

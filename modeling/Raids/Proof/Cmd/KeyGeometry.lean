import Raids.Construction.Cmd.KeyGeometry

namespace Raids

/-- The options of a radius query start at index `i`; the last store option names the key of the
result. -/
inductive GeoOptions : Nat → List RedisMsg → List Nat → Prop where
  | nil (i : Nat) : GeoOptions i [] []
  | flag {i : Nat} {m : RedisMsg} {rest : List RedisMsg} {keys : List Nat} (word : Bytes)
      (known : word ∈ [text "withcoord", text "withdist", text "withhash", text "asc", text "desc"])
      (isWord : m.isWord word) (more : GeoOptions (i + 1) rest keys) :
      GeoOptions i (m :: rest) keys
  | count {i : Nat} {m n : RedisMsg} {rest : List RedisMsg} {keys : List Nat}
      (isWord : m.isWord (text "count")) (more : GeoOptions (i + 2) rest keys) :
      GeoOptions i (m :: n :: rest) keys
  | store {i : Nat} {m key : RedisMsg} {rest : List RedisMsg} {keys : List Nat} (word : Bytes)
      (known : word ∈ [text "store", text "storedist"]) (isWord : m.isWord word)
      (more : GeoOptions (i + 2) rest keys) :
      GeoOptions i (m :: key :: rest) (if keys = [] then [i + 1] else keys)

/-- The options of a stream read come before `STREAMS`, its keys and as many ids. -/
inductive StreamsSyntax (options : List (Bytes × Nat)) : Nat → List RedisMsg → List Nat → Prop
    where
  | option {i : Nat} {m : RedisMsg} {operands rest : List RedisMsg} {keys : List Nat}
      (word : Bytes) (known : (word, operands.length + 1) ∈ options) (isWord : m.isWord word)
      (more : StreamsSyntax options (i + operands.length + 1) rest keys) :
      StreamsSyntax options i (m :: (operands ++ rest)) keys
  | streams {i : Nat} {m : RedisMsg} {keys ids : List RedisMsg} (isWord : m.isWord (text "streams"))
      (nonempty : keys ≠ []) (sameLength : keys.length = ids.length) :
      StreamsSyntax options i (m :: (keys ++ ids)) (List.range' (i + 1) keys.length)

/-- The positions of the keys in the syntax of the movable commands. The numbers and the unit in
front of the options of a radius query are left open, as are the options behind the keys of a
store. -/
inductive KeySyntax (msg : CommandMsg) : RedisCmd → List Nat → Prop where
  | georadius {keys : List Nat} (enough : 6 ≤ msg.argc)
      (options : GeoOptions 6 (msg.args.drop 6) keys) : KeySyntax msg .georadiusCmd (1 :: keys)
  | georadiusbymember {keys : List Nat} (enough : 5 ≤ msg.argc)
      (options : GeoOptions 5 (msg.args.drop 5) keys) :
      KeySyntax msg .georadiusbymemberCmd (1 :: keys)
  | zinterstore {nkeys : Nat} (number : msg.getArgInt 2 = some (nkeys : Int))
      (positive : 0 < nkeys) (enough : 3 + nkeys ≤ msg.argc) :
      KeySyntax msg .zinterstoreCmd (1 :: List.range' 3 nkeys)
  | zunionstore {nkeys : Nat} (number : msg.getArgInt 2 = some (nkeys : Int))
      (positive : 0 < nkeys) (enough : 3 + nkeys ≤ msg.argc) :
      KeySyntax msg .zunionstoreCmd (1 :: List.range' 3 nkeys)
  | xread {keys : List Nat} (options : StreamsSyntax xreadOptions 1 msg.args.tail keys) :
      KeySyntax msg .xreadCmd keys
  | xreadgroup {keys : List Nat}
      (options : StreamsSyntax xreadgroupOptions 1 msg.args.tail keys) :
      KeySyntax msg .xreadgroupCmd keys

/-- The enumeration fills the array of the computed size, with arguments of the message, each
once, and with the keys of the syntax where the command has movable keys. -/
structure ConsistentKeys (cmd : RedisCmd) (msg : CommandMsg) (g : Geometry) : Prop where
  filled : (keyIndices g msg.argc).length = calcKeyCount g msg.argc
  valid : ∀ i ∈ keyIndices g msg.argc, 0 ≤ i ∧ i < msg.argc
  once : (keyIndices g msg.argc).Nodup
  positions : ∀ keys, KeySyntax msg cmd keys → keyIndices g msg.argc = keys.map Nat.cast

open Enumeration

theorem toSize_of_nonneg {i : Int} (lower : 0 ≤ i) (upper : i < 2 ^ 64) :
    toSize i = i.toNat := by
  rw [toSize, Int.emod_eq_of_lt lower upper]

/-- The count of keys up to a fixed last argument. -/
theorem calcKeyCount_fixed {g : Geometry} {argc n : Nat} (noMask : g.stepMask = 0)
    (step : g.step = 1) (start : 0 < g.first) (last : g.last = g.first + n)
    (fits : g.last < 2 ^ 63) : calcKeyCount g argc = n + 1 := by
  simp only [calcKeyCount, noMask, ne_eq, not_true_eq_false, if_false]
  rw [if_pos (by omega), step, Int.tdiv_one, toSize_of_nonneg (by omega) (by omega)]
  omega

/-- The count of keys up to the last argument. -/
theorem calcKeyCount_toEnd {g : Geometry} {argc n : Nat} (noMask : g.stepMask = 0)
    (step : g.step = 1) (start : 0 < g.first) (last : g.last < 0) (argc_eq : argc = g.first + n)
    (fits : argc < 2 ^ 31) : calcKeyCount g argc = n := by
  simp only [calcKeyCount, noMask, ne_eq, not_true_eq_false, if_false]
  rw [if_neg (by omega), if_pos last, step, toSize_of_nonneg (by omega) (by omega),
    toSize_of_nonneg (by omega) (by omega)]
  simp
  omega

/-- The keys of a command without a mask stop in front of this index. -/
def Geometry.stop (g : Geometry) (argc : Nat) : Int :=
  if g.last < 0 then argc + g.last + 1 else g.last + 1

theorem nextKey_unmasked {g : Geometry} {argc : Nat} {i : Int} (noMask : g.stepMask = 0)
    (start : 0 ≤ i) (forward : 0 < g.step) :
    nextKey g argc i = if i + g.step < g.stop argc then some (i + g.step) else none := by
  rw [nextKey, Geometry.stop]
  simp only [noMask, ne_eq, not_true_eq_false, if_false]
  by_cases negative : g.last < 0
  · have beyond : ¬i + g.step ≤ g.last := by omega
    simp only [negative, true_and, if_true, beyond, if_false]
  · simp only [negative, false_and, if_false]
    by_cases inside : i + g.step ≤ g.last
    · rw [if_pos inside, if_pos (by omega)]
    · rw [if_neg inside, if_neg (by omega)]

section Progression

variable {g : Geometry} {argc n : Nat}

/-- The keys of a command without a mask are an arithmetic progression. -/
theorem keyIndices_progression (noMask : g.stepMask = 0) (start : 0 < g.first)
    (forward : 0 < g.step) (inside : g.first + g.step * n < g.stop argc)
    (past : g.stop argc ≤ g.first + g.step * (n + 1)) (enough : n ≤ argc) :
    keyIndices g argc = (List.range (n + 1)).map fun k => g.first + g.step * (k : Nat) := by
  have next : ∀ k : Nat, nextKey g argc (g.first + g.step * k) =
      if g.first + g.step * (k + 1 : Nat) < g.stop argc
        then some (g.first + g.step * (k + 1 : Nat)) else none := by
    intro k
    have product := Int.mul_nonneg forward.le (Int.natCast_nonneg k)
    rw [nextKey_unmasked noMask (by omega) forward, Nat.cast_succ, Int.mul_add, Int.mul_one,
      Int.add_assoc]
  have follows : ∀ k < n, nextKey g argc (g.first + g.step * k) =
      some (g.first + g.step * (k + 1 : Nat)) := by
    intro k before
    have bound := Int.mul_le_mul_of_nonneg_left
      (show ((k + 1 : Nat) : Int) ≤ n by omega) forward.le
    rw [next, if_pos (by omega)]
  have ends : nextKey g argc (g.first + g.step * n) = none := by
    rw [next, if_neg]
    rw [Nat.cast_succ]
    omega
  have whole := enumerate_sequence (fun k : Nat => g.first + g.step * k) follows ends
    (Nat.lt_succ_of_le enough)
  rw [keyIndices, if_pos start]
  simpa using whole

/-- A progression that ends inside the message names each of its arguments once. -/
theorem consistentKeys_progression {cmd : RedisCmd} {msg : CommandMsg} (noMask : g.stepMask = 0)
    (start : 0 < g.first) (forward : 0 < g.step) (inside : g.first + g.step * n < g.stop msg.argc)
    (past : g.stop msg.argc ≤ g.first + g.step * (n + 1)) (enough : n ≤ msg.argc)
    (within : g.stop msg.argc ≤ msg.argc) (count : calcKeyCount g msg.argc = n + 1)
    (positions : ∀ keys, KeySyntax msg cmd keys →
      (List.range (n + 1)).map (fun k : Nat => g.first + g.step * k) = keys.map Nat.cast) :
    ConsistentKeys cmd msg g := by
  have keys := keyIndices_progression noMask start forward inside past enough
  constructor
  · rw [keys, List.length_map, List.length_range, count]
  · intro i member
    rw [keys, List.mem_map] at member
    obtain ⟨k, bound, rfl⟩ := member
    rw [List.mem_range] at bound
    have lower := Int.mul_nonneg forward.le (Int.natCast_nonneg k)
    have upper := Int.mul_le_mul_of_nonneg_left (show (k : Int) ≤ n by omega) forward.le
    constructor <;> omega
  · rw [keys]
    refine List.nodup_range.map fun first second equal => ?_
    have product : g.step * first = g.step * second := by
      have sum : g.first + g.step * (first : Int) = g.first + g.step * second := equal
      omega
    exact Int.natCast_inj.mp (Int.eq_of_mul_eq_mul_left forward.ne' product)
  · intro keys' syntax'
    rw [keys]
    exact positions keys' syntax'

/-- The keys up to a fixed argument of the message are consistent. -/
theorem consistentKeys_fixed {cmd : RedisCmd} {msg : CommandMsg} (noMask : g.stepMask = 0)
    (step : g.step = 1) (start : 0 < g.first) (last : g.last = g.first + n)
    (below : g.last < msg.argc)
    (positions : ∀ keys, KeySyntax msg cmd keys →
      (List.range (n + 1)).map (fun k : Nat => g.first + k) = keys.map Nat.cast) :
    ConsistentKeys cmd msg g := by
  have fits : msg.argc < 2 ^ 31 := msg.fits
  have stop : g.stop msg.argc = g.last + 1 := if_neg (by omega)
  apply consistentKeys_progression noMask start (n := n)
  · omega
  · rw [stop, step]
    omega
  · rw [stop, step]
    omega
  · omega
  · omega
  · exact calcKeyCount_fixed noMask step start last (by omega)
  · simpa only [step, Int.one_mul] using positions

/-- The keys up to the end of the message are consistent. -/
theorem consistentKeys_toEnd {cmd : RedisCmd} {msg : CommandMsg} (noMask : g.stepMask = 0)
    (step : g.step = 1) (start : 0 < g.first) (last : g.last = -1) (below : g.first < msg.argc)
    (noSyntax : ∀ keys, ¬KeySyntax msg cmd keys) : ConsistentKeys cmd msg g := by
  obtain ⟨n, length⟩ : ∃ n : Nat, (msg.argc : Int) = g.first + (n + 1 : Nat) :=
    ⟨(msg.argc - 1 - g.first).toNat, by omega⟩
  have stop : g.stop msg.argc = msg.argc + g.last + 1 := if_pos (by omega)
  apply consistentKeys_progression noMask start (n := n)
  · omega
  · rw [stop, step]
    omega
  · rw [stop, step]
    omega
  · omega
  · omega
  · exact calcKeyCount_toEnd noMask step start (by omega) length msg.fits
  · exact fun keys positions => absurd positions (noSyntax keys)

end Progression

/-- These commands have movable keys, or a table entry that is not regular. -/
def irregularCmds : List RedisCmd :=
  [.msetCmd, .msetnxCmd, .blpopCmd, .brpopCmd, .bzpopminCmd, .bzpopmaxCmd, .objectCmd, .xinfoCmd,
    .xgroupCmd, .georadiusCmd, .georadiusbymemberCmd, .zinterstoreCmd, .zunionstoreCmd, .xreadCmd,
    .xreadgroupCmd]

/-- A regular entry has no keys, or keys in steps of one up to an argument that the arity
guarantees, or up to the last argument. -/
def RedisCmdData.Regular (c : RedisCmdData) : Prop :=
  c.flags &&& cmdMovableFlag = 0 ∧
    (c.first = 0 ∧ c.last = 0 ∨
      c.step = 1 ∧ 0 < c.first ∧ (c.first ≤ c.last ∧ c.last < |c.arity| ∨
        c.last = -1 ∧ c.first < |c.arity|))

instance (c : RedisCmdData) : Decidable c.Regular := inferInstanceAs (Decidable (_ ∧ _))

theorem regular_cmdDb {cmd : RedisCmd} (regular : cmd ∉ irregularCmds) : (cmdDb cmd).Regular := by
  revert regular
  cases cmd <;> decide

theorem arity_le {c : RedisCmdData} {argc : Nat} (ok : arityOk c argc) : |c.arity| ≤ argc := by
  rw [arityOk] at ok
  split at ok
  · rw [abs_of_pos (by assumption), ok]
  · rw [abs_of_nonpos (by omega)]
    exact ok

theorem keySyntax_irregular {cmd : RedisCmd} {msg : CommandMsg} {keys : List Nat}
    (positions : KeySyntax msg cmd keys) : cmd ∈ irregularCmds := by
  cases positions <;> decide

/-- The keys of a regular command are consistent for every number of arguments. -/
theorem consistentKeys_regular {cmd : RedisCmd} (regular : cmd ∉ irregularCmds) {msg : CommandMsg}
    (ok : arityOk (cmdDb cmd) msg.argc) : ConsistentKeys cmd msg (setupCmd (cmdDb cmd)) := by
  have arity := arity_le ok
  have fits : msg.argc < 2 ^ 31 := msg.fits
  have noSyntax : ∀ keys, ¬KeySyntax msg cmd keys :=
    fun keys positions => regular (keySyntax_irregular positions)
  obtain ⟨-, ⟨noFirst, noLast⟩ | ⟨step, start, ⟨ordered, below⟩ | ⟨last, below⟩⟩⟩ :=
    regular_cmdDb regular
  · have empty : keyIndices (setupCmd (cmdDb cmd)) msg.argc = [] := by
      simp [keyIndices, setupCmd, noFirst]
    constructor
    · rw [empty]
      simp [calcKeyCount, setupCmd, noLast]
    · simp [empty]
    · simp [empty]
    · intro keys positions
      exact absurd positions (noSyntax keys)
  · obtain ⟨n, length⟩ := Int.le.dest ordered
    exact consistentKeys_fixed rfl step start length.symm (below.trans_le arity)
      fun keys positions => absurd positions (noSyntax keys)
  · exact consistentKeys_toEnd rfl step start last (below.trans_le arity) noSyntax

section Irregular

variable {cmd : RedisCmd} {msg : CommandMsg}

/-- The pairs of `MSET` are complete when the number of arguments is odd. -/
theorem consistentKeys_pairs (enough : 3 ≤ msg.argc) (noSyntax : ∀ keys, ¬KeySyntax msg cmd keys) :
    ConsistentKeys cmd msg ⟨1, -1, 2, 0⟩ ↔ msg.argc % 2 = 1 := by
  have fits : msg.argc < 2 ^ 31 := msg.fits
  obtain ⟨n, half⟩ : ∃ n, msg.argc / 2 = n + 1 := ⟨msg.argc / 2 - 1, by omega⟩
  have stop : (⟨1, -1, 2, 0⟩ : Geometry).stop msg.argc = msg.argc := by
    simp [Geometry.stop]
  have count : calcKeyCount ⟨1, -1, 2, 0⟩ msg.argc = (msg.argc - 1) / 2 := by
    have size : toSize (msg.argc - 1) = msg.argc - 1 := by
      rw [toSize_of_nonneg (by omega) (by omega)]
      omega
    change toSize (msg.argc - 1) / toSize 2 = _
    rw [size]
    rfl
  constructor
  · intro consistent
    have filled := consistent.filled
    rw [keyIndices_progression rfl (by simp) (by simp) (n := n) (by rw [stop]; simp only; omega)
      (by rw [stop]; simp only; omega) (by omega), count, List.length_map,
      List.length_range] at filled
    omega
  · intro odd
    apply consistentKeys_progression rfl (by simp) (by simp) (n := n)
    · rw [stop]
      simp only
      omega
    · rw [stop]
      simp only
      omega
    · omega
    · exact stop.le
    · rw [count]
      omega
    · exact fun keys positions => absurd positions (noSyntax keys)

/-- The count of a blocking pop includes its timeout. -/
theorem not_consistentKeys_timeout (enough : 3 ≤ msg.argc) :
    ¬ConsistentKeys cmd msg ⟨1, -2, 1, 0⟩ := by
  intro consistent
  have fits : msg.argc < 2 ^ 31 := msg.fits
  obtain ⟨n, length⟩ : ∃ n, msg.argc = n + 3 := ⟨msg.argc - 3, by omega⟩
  have stop : (⟨1, -2, 1, 0⟩ : Geometry).stop msg.argc = msg.argc - 1 := by
    simp [Geometry.stop]
    omega
  have count : calcKeyCount ⟨1, -2, 1, 0⟩ msg.argc = n + 2 :=
    calcKeyCount_toEnd rfl rfl (by simp) (by simp) (by simp only; omega) fits
  have filled := consistent.filled
  rw [keyIndices_progression rfl (by simp) (by simp) (n := n) (by rw [stop]; simp only; omega)
    (by rw [stop]; simp only; omega) (by omega), List.length_map, List.length_range,
    count] at filled
  omega

/-- The step of `OBJECT` skips its own key in the count. -/
theorem not_consistentKeys_object : ¬ConsistentKeys cmd msg ⟨2, 2, 2, 0⟩ := by
  intro consistent
  have filled := consistent.filled
  have stop : (⟨2, 2, 2, 0⟩ : Geometry).stop msg.argc = 3 := by simp [Geometry.stop]
  rw [keyIndices_progression rfl (by simp) (by simp) (n := 0) (by rw [stop]; simp)
    (by rw [stop]; simp) (by omega)] at filled
  simp [calcKeyCount, toSize] at filled

/-- The key of a subcommand is there when the message has a third argument. -/
theorem consistentKeys_subcommand (noSyntax : ∀ keys, ¬KeySyntax msg cmd keys) :
    ConsistentKeys cmd msg ⟨2, 2, 1, 0⟩ ↔ 2 < msg.argc := by
  have stop : (⟨2, 2, 1, 0⟩ : Geometry).stop msg.argc = 3 := by simp [Geometry.stop]
  have keys : keyIndices ⟨2, 2, 1, 0⟩ msg.argc = [2] := by
    rw [keyIndices_progression rfl (by simp) (by simp) (n := 0) (by rw [stop]; simp)
      (by rw [stop]; simp) (by omega)]
    rfl
  constructor
  · intro consistent
    have valid := consistent.valid 2 (by simp [keys])
    omega
  · intro enough
    exact consistentKeys_fixed (n := 0) rfl rfl (by simp) (by simp) (by simp only; omega)
      fun keys positions => absurd positions (noSyntax keys)

end Irregular

end Raids

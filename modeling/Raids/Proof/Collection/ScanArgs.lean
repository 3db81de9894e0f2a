import Raids.Construction.Collection.Scan
import Raids.Proof.Cmd.MovableKeys
import Raids.Proof.Msg.Number

namespace Raids

section Arguments

variable {msg : CommandMsg} {n : Nat} {strval : Bytes}

theorem toInt32_length (fits : strval.length < 2 ^ 31) :
    toInt32 strval.length = strval.length :=
  toInt32_of_bounds (by omega) (by omega)

/-- A bulk string with bytes is a string argument. -/
theorem getArgStr_mkStr (here : msg.args[n]? = some (mkStr strval)) (nonempty : strval ≠ [])
    (fits : strval.length < 2 ^ 31) : msg.getArgStr n = some strval := by
  have positive := List.length_pos_iff.mpr nonempty
  simp only [CommandMsg.getArgStr, if_neg (show ¬(n : Int) < 0 by omega), Int.toNat_natCast, here,
    mkStr, toInt32_length fits]
  rw [if_pos (by omega), List.take_length]

/-- An empty bulk string is none. -/
theorem getArgStr_empty (here : msg.args[n]? = some (mkStr [])) : msg.getArgStr n = none := by
  simp only [CommandMsg.getArgStr, if_neg (show ¬(n : Int) < 0 by omega), Int.toNat_natCast, here]
  rfl

/-- The decimal of an int64 is an integer argument. -/
theorem getArgInt_int64ToString {v : Nat} (here : msg.args[n]? = some (mkStr (int64ToString v)))
    (fits : v < 2 ^ 63) : msg.getArgInt n = some (v : Int) := by
  have printed : int64ToString v = Decimal.decimal v := by
    rw [int64ToString, if_neg (by omega), uint64ToString, Int.natAbs_natCast]
  have short : (int64ToString v).length < 2 ^ 31 := by
    have digits : (Decimal.decimal v).length ≤ 20 :=
      (Decimal.length_decimal_le_iff (by decide)).mpr (by omega)
    rw [printed]
    omega
  have positive : 0 < (int64ToString v).length := by
    rw [printed]
    exact List.length_pos_iff.mpr (Decimal.decimal_ne_nil v)
  simp only [CommandMsg.getArgInt, here, mkStr, toInt32_length short]
  rw [if_pos (by omega), Int.toNat_natCast, List.take_length,
    stringToInt_int64ToString (by omega) (by omega)]
  rfl

end Arguments

/-- An option of a scan, as a client sends it. -/
inductive ScanOption where
  | pattern (bytes : Bytes) (fits : bytes.length < 2 ^ 31)
  | count (maxcnt : Nat) (positive : 0 < maxcnt) (fits : maxcnt < 2 ^ 63)

def ScanOption.args : ScanOption → List RedisMsg
  | .pattern bytes _ => [mkStr (text "match"), mkStr bytes]
  | .count maxcnt _ _ => [mkStr (text "count"), mkStr (int64ToString maxcnt)]

/-- The pattern and the page size behind an option. -/
def ScanOption.set (before : Option Bytes × Int) : ScanOption → Option Bytes × Int
  | .pattern bytes _ => (some bytes, before.2)
  | .count maxcnt _ _ => (before.1, maxcnt)

/-- An empty pattern is no argument. -/
def ScanOption.filled : ScanOption → Bool
  | .pattern bytes _ => !bytes.isEmpty
  | .count _ _ _ => true

/-- The requests of one scan: they differ in their cursor. -/
structure ScanRequest where
  cmd : ScanCmd
  key : Bytes
  options : List ScanOption
  fits : 3 + 2 * options.length < 2 ^ 31

namespace ScanRequest

variable (req : ScanRequest)

def head (cursor : Nat) : List RedisMsg :=
  [mkStr req.cmd.word, mkStr req.key, mkStr (int64ToString cursor)]

theorem length_options (options : List ScanOption) :
    (options.flatMap ScanOption.args).length = 2 * options.length := by
  induction options with
  | nil => rfl
  | cons option options ih =>
      have two : option.args.length = 2 := by cases option <;> rfl
      rw [List.flatMap_cons, List.length_append, ih, List.length_cons, two]
      omega

/-- The message of one call. -/
def message (cursor : Nat) : CommandMsg where
  args := req.head cursor ++ req.options.flatMap ScanOption.args
  fits := by
    rw [List.length_append, length_options]
    exact req.fits

/-- The pattern and the page size of the request. -/
def settings : Option Bytes × Int := req.options.foldl ScanOption.set (none, 10)

end ScanRequest

section Options

theorem distinct_scanWords : DistinctWords [text "match", text "count"] := by decide

/-- The loop reads the options one by one. -/
theorem scanOptions_eq (msg : CommandMsg) (options : List ScanOption) (before : List RedisMsg)
    (args : msg.args = before ++ options.flatMap ScanOption.args) (fuel : Nat)
    (enough : options.length < fuel) (pattern : Option Bytes) (maxcnt : Int) :
    scanOptions msg fuel before.length pattern maxcnt =
      if options.all ScanOption.filled then
        some (options.foldl ScanOption.set (pattern, maxcnt))
      else none := by
  induction options generalizing before fuel pattern maxcnt with
  | nil =>
      obtain ⟨fuel, rfl⟩ := Nat.exists_eq_succ_of_ne_zero (Nat.ne_zero_of_lt enough)
      have done : msg.argc ≤ before.length := by
        rw [CommandMsg.argc, args]
        simp
      rw [scanOptions, if_pos done]
      rfl
  | cons option options ih =>
      obtain ⟨fuel, rfl⟩ := Nat.exists_eq_succ_of_ne_zero (Nat.ne_zero_of_lt enough)
      have more : options.length < fuel := by
        rw [List.length_cons] at enough
        omega
      have next := ih (before ++ option.args) (by rw [args]; simp) fuel more
      cases option with
      | pattern bytes fits =>
          have word : msg.args[before.length]? = some (mkStr (text "match")) := by
            rw [args]
            simp [ScanOption.args]
          have value : msg.args[before.length + 1]? = some (mkStr bytes) := by
            rw [args]
            simp [ScanOption.args]
          have inside : ¬msg.argc ≤ before.length := by
            rw [CommandMsg.argc, args]
            simp [ScanOption.args]
          rw [scanOptions, if_neg inside, matchArg_of_isWord distinct_scanWords word
            (show [text "match", text "count"][0]? = some (text "match") from rfl) (by decide)]
          by_cases empty : bytes = []
          · subst empty
            simp only [getArgStr_empty value]
            simp [ScanOption.filled]
          · simp only [getArgStr_mkStr value empty fits]
            rw [List.length_append] at next
            rw [show before.length + 2 = before.length + (ScanOption.pattern bytes fits).args.length
              from rfl, next]
            simp [ScanOption.filled, ScanOption.set, empty]
      | count n positive fits =>
          have word : msg.args[before.length]? = some (mkStr (text "count")) := by
            rw [args]
            simp [ScanOption.args]
          have value : msg.args[before.length + 1]? = some (mkStr (int64ToString n)) := by
            rw [args]
            simp [ScanOption.args]
          have inside : ¬msg.argc ≤ before.length := by
            rw [CommandMsg.argc, args]
            simp [ScanOption.args]
          rw [scanOptions, if_neg inside, matchArg_of_isWord distinct_scanWords word
            (show [text "match", text "count"][1]? = some (text "count") from rfl) (by decide)]
          simp only [getArgInt_int64ToString value fits]
          rw [List.length_append] at next
          rw [show before.length + 2 =
            before.length + (ScanOption.count n positive fits).args.length from rfl, next]
          simp [ScanOption.filled, ScanOption.set]

end Options

namespace ScanRequest

variable (req : ScanRequest) (compile : Bytes → Option (Bytes → Bool))

/-- The arguments of a call at a cursor, unless its pattern is refused. -/
def scanArgs (cursor : Nat) : Option ScanArgs :=
  if req.options.all ScanOption.filled then
    match req.settings with
    | (none, maxcnt) => some ⟨cursor, maxcnt, none⟩
    | (some pattern, maxcnt) => (compile pattern).map fun re => ⟨cursor, maxcnt, some re⟩
  else none

/-- A call reads back its cursor and the settings of the request. -/
theorem matchScanArgs_message {cursor : Nat} (small : cursor < 2 ^ 63) :
    matchScanArgs compile (req.message cursor) 2 = req.scanArgs compile cursor := by
  have third : (req.message cursor).args[2]? = some (mkStr (int64ToString cursor)) := by
    simp [message, head]
  have pos : (req.message cursor).getArgInt 2 = some (cursor : Int) :=
    getArgInt_int64ToString third small
  have enough : req.options.length < (req.message cursor).argc + 1 := by
    simp only [CommandMsg.argc, message, List.length_append, length_options]
    omega
  have options := scanOptions_eq (req.message cursor) req.options (req.head cursor) rfl _ enough
    none 10
  rw [show (req.head cursor).length = 2 + 1 from rfl] at options
  rw [matchScanArgs, pos, scanArgs, settings, options]
  cases req.options.all ScanOption.filled with
  | false => rfl
  | true =>
      simp only [if_true]
      cases List.foldl ScanOption.set (none, (10 : Int)) req.options with
      | mk pattern maxcnt => cases pattern <;> simp

end ScanRequest

end Raids

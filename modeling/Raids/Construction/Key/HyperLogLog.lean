import Raids.Construction.Key.Bits
import Raids.Construction.Key.Continue

namespace Raids.Key

/-- The counters of distinct elements: the check of their bytes, an empty counter, the merge of
another counter into one, and the rounded estimate. -/
structure HyperLogLog where
  isHllmsg : Bytes → Bool
  init : Bytes
  merge : Bytes → Bytes → Bytes
  estimate : Bytes → Nat

variable (hll : HyperLogLog) (env : KeyEnv)

/-- The values of all keys but the last are saved, and the last key merges them into its own. -/
def execPfcount : Handler Bytes := fun s _ entry =>
  let found := getKeyRead env .hyperLogLog entry
  match found.kstatus, found.entry with
  | some .keyOk, some e =>
      if env.valued then
        if hll.isHllmsg e.data = false then (found.read .errBadType, none)
        else if s.keys.length = 1 then
          ({ found.read (if env.validated then .execSendInt else .errKvStatus) with
              ival := hll.estimate e.data }, none)
        else if s.keys.length = s.keyDone + 1 then
          if env.validated then
            ({ found.read .execSendInt with
                ival := hll.estimate ((s.keys.filterMap KeyCtx.part).foldl hll.merge e.data) },
              none)
          else (found.read .errKvStatus, none)
        else (found.read (if env.validated then .execOk else .errKvStatus), some e.data)
      else (found.read .errKvStatus, none)
  | some .keyNotFound, _ => (found.read .execSendZero, none)
  | some .keyNoValue, _ => (found.read .errBadType, none)
  | _, _ => (found.read .errKvStatus, none)

/-- The value of a source is saved; nothing is saved for a missing key or an empty value. -/
def pfmergeSource (entry : Option (Entry Bytes)) : KeyRun Bytes × Option Bytes :=
  let found := getKeyRead env .hyperLogLog entry
  match found.kstatus, found.entry with
  | some .keyOk, some e =>
      if env.valued then
        if hll.isHllmsg e.data = false then (found.read .errBadType, none)
        else if e.data.length = 0 then (found.read .execOk, none)
        else (found.read (if env.validated then .execOk else .errKvStatus), some e.data)
      else (found.read .errKvStatus, none)
  | some .keyNotFound, _ => (found.read .execOk, none)
  | some .keyNoValue, _ => (found.read .errBadType, none)
  | _, _ => (found.read .errKvStatus, none)

/-- The first saved value is copied, and the others are merged into it. -/
def mergedParts : List Bytes → Bytes
  | [] => hll.init
  | first :: rest => rest.foldl hll.merge first

/-- The destination is overwritten by the merged values. -/
def pfmergeDest (parts : List Bytes) (entry : Option (Entry Bytes)) : KeyRun Bytes :=
  let found := getKeyWrite env .hyperLogLog entry
  match found.kstatus with
  | some .keyOk | some .keyIsNew =>
      if env.resized then
        { found.stop .execSendOk with
            entry := some (Entry.write found.entry (mergedParts hll parts)) }
      else found.stop .errKvStatus
  | some .keyNoValue => found.stop .errBadType
  | _ => found.stop .errKvStatus

/-- The first key is the destination, and it waits for the sources. -/
def execPfmerge : Handler Bytes := fun s ctx entry =>
  if ctx.argn = 1 then
    if s.keys.length ≠ s.keyDone + 1 then (unfetched .execDepends entry, none)
    else (pfmergeDest hll env (s.keys.tail.filterMap KeyCtx.part) entry, none)
  else pfmergeSource hll env entry

end Raids.Key

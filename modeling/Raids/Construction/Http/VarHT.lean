import Raids.Construction.Msg.Basic

namespace Raids.Http

/-- A name and its value. -/
structure Pair where
  x : Bytes := []
  y : Bytes := []
  deriving DecidableEq, Repr

/-- A pair without a name is an empty slot. -/
def Pair.isEmpty (p : Pair) : Bool := p.x.isEmpty

/-- The slots below the size hold the pairs. -/
structure VarHT where
  p : Nat → Pair
  used : Nat
  sz : Nat

namespace VarHT

/-- The table has no slots at first. -/
def init : VarHT := { p := fun _ => {}, used := 0, sz := 0 }

/-- The slots are asked one behind the other, around the end, until one of them stops the loop. -/
def probe (m : Nat) (stop : Nat → Bool) : Nat → Nat → Option Nat
  | 0, _ => none
  | left + 1, k => if stop k then some k else probe m stop left ((k + 1) &&& m)

/-- A pair leaves its slot for an empty one. -/
def move (p : Nat → Pair) (i j : Nat) : Nat → Pair :=
  Function.update (Function.update p j (p i)) i {}

variable (hash : Bytes → UInt32)

/-- Each pair goes to the first empty slot on its way from its home, or stays where it is. The loop
over the way of a pair has no other end, so that nothing stands for a way that ends nowhere. -/
def resizeLoop (sz sz2 : Nat) : Nat → Nat → (Nat → Pair) → Option (Nat → Pair)
  | 0, _, p => some p
  | left + 1, i, p =>
      if (p i).isEmpty then if sz < i then some p else resizeLoop sz sz2 left (i + 1) p
      else
        let mask := sz2 - 1
        match probe mask (fun j => j = i || (p j).isEmpty) sz2 ((hash (p i).x).toNat &&& mask) with
        | none => none
        | some j => resizeLoop sz sz2 left (i + 1) (if j = i then p else move p i j)

/-- The slots are doubled, and the new ones are empty. -/
def resize (t : VarHT) : Option VarHT :=
  let sz2 := if t.sz = 0 then 8 else t.sz * 2
  let p := fun i => if t.sz ≤ i ∧ i < sz2 then {} else t.p i
  (resizeLoop hash t.sz sz2 sz2 0 p).map fun p => { t with p := p, sz := sz2 }

/-- The value of the name is replaced, or the pair is written to the first empty slot. -/
def insert (t : VarHT) (pair : Pair) : VarHT :=
  let m := t.sz - 1
  match probe m (fun k => (t.p k).x = pair.x || (t.p k).isEmpty) t.sz
      ((hash pair.x).toNat &&& m) with
  | none => t
  | some k =>
      if (t.p k).x = pair.x then
        { t with p := Function.update t.p k { t.p k with y := pair.y } }
      else { t with p := Function.update t.p k pair, used := t.used + 1 }

/-- A table that is half full grows first. -/
def add (t : VarHT) (pair : Pair) : Option VarHT :=
  (if t.sz / 2 ≤ t.used then t.resize hash else some t).map fun t => t.insert hash pair

/-- The value of the name. -/
def get (t : VarHT) (x : Bytes) : Option Bytes :=
  let m := t.sz - 1
  match probe m (fun k => (t.p k).x = x || (t.p k).isEmpty) t.sz ((hash x).toNat &&& m) with
  | none => none
  | some k => if (t.p k).x = x then some (t.p k).y else none

/-- The pairs are added one behind the other. -/
def addAll (t : VarHT) : List Pair → Option VarHT
  | [] => some t
  | pair :: pairs => (t.add hash pair).bind fun t => t.addAll pairs

end VarHT

end Raids.Http

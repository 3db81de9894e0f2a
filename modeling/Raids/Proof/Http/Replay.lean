import Raids.Construction.Http.Auth
import Mathlib.Data.List.Induction

namespace Raids.Http

open HttpServerReplay

/-- The number that the count of a client stands for. -/
def ncValue (nc : Bytes) : Nat :=
  (cstr nc).foldl (fun n c => 16 * n + (hexValue c).getD 0) 0

/-- The same user with the same nonce of its own. -/
def SameClient (a b : AuthHeader) : Prop :=
  cstr a.username = cstr b.username ∧ cstr a.cnonce = cstr b.cnonce

instance (a b : AuthHeader) : Decidable (SameClient a b) := inferInstanceAs (Decidable (_ ∧ _))

/-- What is presented behind the last new nonce. -/
def presented (acts : List NonceAct) : List AuthHeader :=
  acts.foldl (fun auths act =>
    match act with
    | .regenerate => []
    | .checkReplay auth => auths ++ [auth]) []

/-- What the same client has presented before. -/
def earlier (acts : List NonceAct) (auth : AuthHeader) : List AuthHeader :=
  (presented acts).filter fun b => SameClient b auth

section Spec

variable (crc : Bytes → UInt32) (acts : List NonceAct)

/-- Each slot has one client. -/
def NoCollisions : Prop :=
  ∀ a b, NonceAct.checkReplay a ∈ acts → NonceAct.checkReplay b ∈ acts →
    slot crc a = slot crc b → SameClient a b

/-- A count that was reached before is a replay, and one above all earlier ones is none. -/
def DetectsReplays : Prop :=
  ∀ before auth after, acts = before ++ .checkReplay auth :: after →
    ((∃ b ∈ earlier before auth, ncValue auth.nc ≤ ncValue b.nc) →
      ((nonceRun crc before).checkReplay crc auth).1 = true) ∧
    ((∀ b ∈ earlier before auth, ncValue b.nc < ncValue auth.nc) →
      ((nonceRun crc before).checkReplay crc auth).1 = false)

/-- A count that was reached before is below the number of the earlier ones, and one above all of
them is not; both are numbers of 32 bits. -/
def CountsPresented : Prop :=
  ∀ before auth after, acts = before ++ .checkReplay auth :: after →
    ((∃ b ∈ earlier before auth, ncValue auth.nc ≤ ncValue b.nc) →
      ncValue auth.nc % 2 ^ 32 < (earlier before auth).length % 2 ^ 32) ∧
    ((∀ b ∈ earlier before auth, ncValue b.nc < ncValue auth.nc) →
      (earlier before auth).length % 2 ^ 32 ≤ ncValue auth.nc % 2 ^ 32)

end Spec

section Incr

theorem countDigit_eq (c : UInt8) :
    (countDigit c).toNat = (hexValue c).getD 0 ∧ (countDigit c).toNat < 16 := by
  by_cases digit : 48 ≤ c ∧ c ≤ 57
  · simp only [countDigit, hexValue, if_pos digit, Option.getD_some]
    rw [UInt8.toNat_sub_of_le _ _ digit.1]
    simp only [UInt8.le_iff_toNat_le, UInt8.reduceToNat] at digit ⊢
    exact ⟨trivial, by omega⟩
  · by_cases small : 97 ≤ c ∧ c ≤ 102
    · simp only [countDigit, hexValue, if_neg digit, if_pos small, Option.getD_some]
      rw [UInt8.toNat_add, UInt8.toNat_sub_of_le _ _ small.1]
      simp only [UInt8.le_iff_toNat_le, UInt8.reduceToNat] at small ⊢
      omega
    · by_cases large : 65 ≤ c ∧ c ≤ 70
      · simp only [countDigit, hexValue, if_neg digit, if_neg small, if_pos large,
          Option.getD_some]
        rw [UInt8.toNat_add, UInt8.toNat_sub_of_le _ _ large.1]
        simp only [UInt8.le_iff_toNat_le, UInt8.reduceToNat] at large ⊢
        omega
      · simp only [countDigit, hexValue, if_neg digit, if_neg small, if_neg large]
        exact ⟨rfl, by decide⟩

/-- A digit goes below the bits that are there. -/
theorem toNat_shift (incr : UInt32) {d : UInt8} (below : d.toNat < 16) :
    (incr <<< 4 ||| d.toUInt32 : UInt32).toNat = (16 * incr.toNat + d.toNat) % 2 ^ 32 := by
  have high : (incr.toNat <<< 4) % 2 ^ 32 = (incr.toNat % 2 ^ 28) <<< 4 := by
    rw [Nat.shiftLeft_eq, Nat.shiftLeft_eq]
    omega
  rw [UInt32.toNat_or, UInt32.toNat_shiftLeft, UInt8.toNat_toUInt32]
  change (incr.toNat <<< 4) % 2 ^ 32 ||| d.toNat = _
  rw [high, ← Nat.shiftLeft_add_eq_or_of_lt below, Nat.shiftLeft_eq]
  omega

/-- The increment is the count, as a number of 32 bits. -/
theorem clientIncr_eq (nc : Bytes) : (clientIncr nc).toNat = ncValue nc % 2 ^ 32 := by
  have all : ∀ (digits : Bytes) (incr : UInt32) (n : Nat), incr.toNat = n % 2 ^ 32 →
      (digits.foldl (fun (incr : UInt32) c => (incr <<< 4) ||| (countDigit c).toUInt32) incr).toNat =
        digits.foldl (fun n c => 16 * n + (hexValue c).getD 0) n % 2 ^ 32 := by
    intro digits
    induction digits with
    | nil => exact fun incr n same => same
    | cons c digits ih =>
        intro incr n same
        obtain ⟨value, below⟩ := countDigit_eq c
        apply ih
        rw [toNat_shift incr below, same, value]
        dsimp only
        omega
  exact all _ 0 0 rfl

end Incr

section Run

variable (crc : Bytes → UInt32) (acts : List NonceAct)

/-- A slot has the number of its authorizations behind the last new nonce. -/
theorem nonceRun_replay (h : Nat) :
    (nonceRun crc acts).replay h =
      UInt32.ofNat ((presented acts).countP fun auth => slot crc auth = h) := by
  induction acts using List.reverseRecOn with
  | nil => rfl
  | append_singleton acts act ih =>
      rw [nonceRun, List.foldl_append, List.foldl_cons, List.foldl_nil, ← nonceRun, presented,
        List.foldl_append, List.foldl_cons, List.foldl_nil, ← presented]
      cases act with
      | regenerate => rfl
      | checkReplay auth =>
          by_cases here : h = slot crc auth
          · rw [here] at ih ⊢
            simp [nonceStep, checkReplay, ih, UInt32.ofNat_add]
          · simp [nonceStep, checkReplay, here, ih, Ne.symm here]

/-- Only checked authorizations are presented. -/
theorem mem_of_presented {auth : AuthHeader} (member : auth ∈ presented acts) :
    .checkReplay auth ∈ acts := by
  induction acts using List.reverseRecOn with
  | nil => cases member
  | append_singleton acts act ih =>
      rw [presented, List.foldl_append, List.foldl_cons, List.foldl_nil, ← presented] at member
      cases act with
      | regenerate => cases member
      | checkReplay other =>
          rcases List.mem_append.mp member with before | last
          · exact List.mem_append_left _ (ih before)
          · rw [List.mem_singleton.mp last]
            simp

end Run

/-- Replays are detected in these runs only. -/
theorem checkReplay_exact (crc : Bytes → UInt32) (acts : List NonceAct)
    (apart : NoCollisions crc acts) : DetectsReplays crc acts ↔ CountsPresented acts := by
  have step : ∀ before auth after, acts = before ++ .checkReplay auth :: after →
      ((nonceRun crc before).checkReplay crc auth).1 =
        decide (ncValue auth.nc % 2 ^ 32 < (earlier before auth).length % 2 ^ 32) := by
    intro before auth after split
    have slots : (presented before).countP (fun b => slot crc b = slot crc auth) =
        (earlier before auth).length := by
      rw [earlier, ← List.countP_eq_length_filter]
      refine List.countP_congr fun b member => ?_
      have isChecked := mem_of_presented before member
      simp only [decide_eq_true_eq]
      constructor
      · exact apart b auth (by rw [split]; simp [isChecked]) (by rw [split]; simp)
      · intro same
        rw [slot, slot, same.1, same.2]
    rw [checkReplay, nonceRun_replay, slots]
    simp only [UInt32.lt_iff_toNat_lt, clientIncr_eq, UInt32.toNat_ofNat']
  rw [DetectsReplays, CountsPresented]
  refine forall_congr' fun before => forall_congr' fun auth => forall_congr' fun after =>
    forall_congr' fun split => ?_
  rw [step before auth after split, decide_eq_true_eq, decide_eq_false_iff_not, not_lt]

/-- The checksum of a string, bit by bit. -/
def crcC (s : Bytes) : UInt32 :=
  s.foldl (fun crc c =>
    (List.range 8).foldl (fun crc _ =>
      if crc &&& 1 = 1 then (crc >>> 1) ^^^ 0x82f63b78 else crc >>> 1)
      (crc ^^^ c.toUInt32)) 0

/-- A client that counts up is served. -/
theorem checkReplay_exact_rising :
    DetectsReplays crcC
      [.checkReplay ⟨text "u", [], [], [], text "00000000", text "c"⟩,
        .checkReplay ⟨text "u", [], [], [], text "00000001", text "c"⟩] := by
  refine (checkReplay_exact crcC _ ?_).mpr ?_
  · intro a b first second _
    simp only [List.mem_cons, NonceAct.checkReplay.injEq, List.not_mem_nil, or_false] at first second
    rcases first with rfl | rfl <;> rcases second with rfl | rfl <;> exact ⟨rfl, rfl⟩
  · intro before auth after split
    rcases before with _ | ⟨a, _ | ⟨b, before⟩⟩
    · obtain ⟨same, -⟩ := List.cons.inj split
      obtain rfl := NonceAct.checkReplay.inj same
      exact ⟨by simp [earlier, presented], by simp [earlier, presented]⟩
    · obtain ⟨rfl, rest⟩ := List.cons.inj split
      obtain ⟨same, -⟩ := List.cons.inj rest
      obtain rfl := NonceAct.checkReplay.inj same
      decide
    · simp at split

/-- A count that comes twice is not seen to be one. -/
theorem not_checkReplay_exact :
    ¬DetectsReplays crcC
      [.checkReplay ⟨text "u", [], [], [], text "00000001", text "c"⟩,
        .checkReplay ⟨text "u", [], [], [], text "00000001", text "c"⟩] := by
  intro detects
  have second := (detects [.checkReplay ⟨text "u", [], [], [], text "00000001", text "c"⟩]
    ⟨text "u", [], [], [], text "00000001", text "c"⟩ [] rfl).1
    ⟨_, List.mem_singleton.mpr rfl, le_rfl⟩
  rw [checkReplay, nonceRun_replay] at second
  have one : (presented [.checkReplay ⟨text "u", [], [], [], text "00000001", text "c"⟩]).countP
      (fun auth => slot crcC auth =
        slot crcC ⟨text "u", [], [], [], text "00000001", text "c"⟩) = 1 := by
    simp [presented]
  rw [one] at second
  exact absurd second (by decide)

end Raids.Http

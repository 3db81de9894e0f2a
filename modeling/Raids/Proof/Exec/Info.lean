import Raids.Construction.Exec.Info
import Raids.Proof.Msg.Number

namespace Raids

section Cells

variable {α : Type} {b : Block α} {off : Nat} {l l' : List α}

/-- The bytes of a block from an offset on. -/
def Block.HoldsAt (b : Block α) (off : Nat) (l : List α) : Prop :=
  ∀ k < l.length, b.cells (off + k) = l[k]?

theorem Block.holdsAt_copy : (b.copy off l).HoldsAt off l := by
  intro k below
  simp only [Block.copy]
  rw [if_pos (by omega), Nat.add_sub_cancel_left]

/-- A copy beside some bytes leaves them alone. -/
theorem Block.HoldsAt.copy {other : Nat} (held : b.HoldsAt off l)
    (beside : off + l.length ≤ other ∨ other + l'.length ≤ off) :
    (b.copy other l').HoldsAt off l := by
  intro k below
  simp only [Block.copy]
  rw [if_neg (by omega), held k below]

theorem Block.HoldsAt.append (front : b.HoldsAt off l) (back : b.HoldsAt (off + l.length) l') :
    b.HoldsAt off (l ++ l') := by
  intro k below
  rw [List.length_append] at below
  by_cases first : k < l.length
  · rw [front k first, List.getElem?_append_left first]
  · obtain ⟨i, rfl⟩ := Nat.exists_eq_add_of_le (Nat.le_of_not_lt first)
    rw [← Nat.add_assoc, back i (by omega), List.getElem?_append_right (by omega),
      Nat.add_sub_cancel_left]

theorem Block.HoldsAt.left (held : b.HoldsAt off (l ++ l')) : b.HoldsAt off l := by
  intro k below
  rw [held k (by rw [List.length_append]; omega), List.getElem?_append_left below]

/-- The bytes that are read are those that are held. -/
theorem Block.HoldsAt.read (held : b.HoldsAt off l) :
    (List.range l.length).map (fun k => b.cells (off + k)) = l.map some := by
  apply List.ext_getElem
  · simp
  · intro k below _
    rw [List.length_map, List.length_range] at below
    rw [List.getElem_map, List.getElem_map, List.getElem_range, held k below,
      List.getElem?_eq_getElem below]

theorem Block.reach_copy (nonempty : l ≠ []) :
    (b.copy off l).reach = max b.reach (off + l.length) := by
  simp only [Block.copy]
  rw [if_pos (List.length_pos_of_ne_nil nonempty)]

end Cells

section Calls

variable (st : InfoState)

/-- The text of the calls behind a text. The geometry has the space that is left. -/
def infoTextFrom : Bytes → List InfoCall → Bytes
  | acc, [] => acc
  | acc, .xnprintf str :: calls => infoTextFrom (acc ++ str) calls
  | acc, .printMapGeom :: calls =>
      infoTextFrom (acc ++ st.printMapGeom (infoLen - 32 - acc.length)) calls

def infoText (calls : List InfoCall) : Bytes := infoTextFrom st [] calls

/-- The buffer has the text, and the space behind it is left. -/
structure InfoBuf.Fits (s : InfoBuf) (str : Bytes) : Prop where
  place : s.b = 32 + str.length
  space : s.sz = infoLen - 32 - str.length
  short : str.length < infoLen - 32
  held : s.buf.HoldsAt 32 str
  inside : s.buf.reach ≤ infoLen

variable {s : InfoBuf} {str : Bytes}

theorem infoStart_fits : infoStart.Fits [] where
  place := rfl
  space := rfl
  short := by decide
  held k below := absurd below (Nat.not_lt_zero k)
  inside := by decide

/-- A text that is shorter than the space is added behind the others. -/
theorem InfoBuf.Fits.add (fits : s.Fits str) {more : Bytes} (short : more.length < s.sz) :
    (InfoBuf.mk (s.buf.copy s.b (more ++ [0])) (s.b + more.length) (s.sz - more.length)).Fits
      (str ++ more) := by
  have space := fits.space
  refine ⟨?_, ?_, ?_, ?_, ?_⟩
  · rw [List.length_append]
    have place := fits.place
    dsimp only
    omega
  · rw [List.length_append]
    dsimp only
    omega
  · rw [List.length_append]
    omega
  · have added : (s.buf.copy s.b (more ++ [0])).HoldsAt s.b more :=
      Block.holdsAt_copy.left
    rw [fits.place] at added ⊢
    exact Block.HoldsAt.append (fits.held.copy (Or.inl (Nat.le_refl _))) added
  · have inside := fits.inside
    have place := fits.place
    dsimp only
    rw [Block.reach_copy (by simp), List.length_append, List.length_singleton]
    omega

/-- A print within the space adds its text, and a longer one leaves the end of the text outside the
buffer. -/
theorem InfoBuf.Fits.xnprintf (fits : s.Fits str) (more : Bytes) :
    if str.length + more.length < infoLen - 32 then (Raids.xnprintf s more).Fits (str ++ more)
    else infoLen ≤ (Raids.xnprintf s more).b := by
  have space := fits.space
  have short := fits.short
  have some : 0 < s.sz := by omega
  rw [Raids.xnprintf, if_pos some]
  split
  · have whole : more.take (s.sz - 1) = more := List.take_of_length_le (by omega)
    rw [whole, Nat.min_eq_left (by omega)]
    exact fits.add (by omega)
  · have place := fits.place
    have length : infoLen = 8192 := rfl
    dsimp only
    omega

theorem InfoBuf.Fits.printMapGeom (fits : s.Fits str) :
    (InfoCall.run st s .printMapGeom).Fits
      (str ++ st.printMapGeom (infoLen - 32 - str.length)) := by
  have space := fits.space
  have short := fits.short
  rw [InfoCall.run, ← space]
  exact fits.add (st.printMapGeom_fits s.sz (by omega))

/-- The end of the text never moves back. -/
theorem le_run (call : InfoCall) : s.b ≤ (call.run st s).b := by
  cases call with
  | xnprintf str =>
      rw [InfoCall.run, Raids.xnprintf]
      split
      · exact Nat.le_add_right _ _
      · exact Nat.le_refl _
  | printMapGeom => exact Nat.le_add_right _ _

theorem le_foldl (calls : List InfoCall) (s : InfoBuf) :
    s.b ≤ (calls.foldl (InfoCall.run st) s).b := by
  induction calls generalizing s with
  | nil => exact Nat.le_refl _
  | cons call calls ih => exact (le_run st call).trans (ih _)

theorem length_le_infoTextFrom (acc : Bytes) (calls : List InfoCall) :
    acc.length ≤ (infoTextFrom st acc calls).length := by
  induction calls generalizing acc with
  | nil => exact Nat.le_refl _
  | cons call calls ih =>
      cases call with
      | xnprintf str =>
          have more := ih (acc ++ str)
          rw [List.length_append] at more
          rw [infoTextFrom]
          omega
      | printMapGeom =>
          have more := ih (acc ++ st.printMapGeom (infoLen - 32 - acc.length))
          rw [List.length_append] at more
          rw [infoTextFrom]
          omega

/-- The calls leave their whole text, or the end of the text outside the buffer. -/
theorem InfoBuf.Fits.run (fits : s.Fits str) (calls : List InfoCall) :
    if (infoTextFrom st str calls).length < infoLen - 32 then
      (calls.foldl (InfoCall.run st) s).Fits (infoTextFrom st str calls)
    else infoLen ≤ (calls.foldl (InfoCall.run st) s).b := by
  induction calls generalizing s str with
  | nil =>
      rw [infoTextFrom, if_pos fits.short]
      exact fits
  | cons call calls ih =>
      cases call with
      | xnprintf more =>
          have step := fits.xnprintf more
          rw [infoTextFrom, List.foldl_cons]
          by_cases short : str.length + more.length < infoLen - 32
          · rw [if_pos short] at step
            exact ih step
          · rw [if_neg short] at step
            have longer := length_le_infoTextFrom st (str ++ more) calls
            rw [List.length_append] at longer
            rw [if_neg (by omega)]
            exact step.trans (le_foldl st calls _)
      | printMapGeom =>
          rw [infoTextFrom, List.foldl_cons]
          exact ih (fits.printMapGeom st)

end Calls

section Send

variable {s : InfoBuf} {str : Bytes}

/-- The header and the text are sent with their line ends, unless the last one is cut. -/
theorem sendInfo_reply (fits : s.Fits str) : (sendInfo s).2 =
    (StringType.char .bulkString :: uint64ToString str.length ++ crlf ++ str ++ crlf).map some := by
  have length : infoLen = 8192 := rfl
  have short := fits.short
  have space := fits.space
  have place := fits.place
  have n : infoLen - 32 - s.sz = str.length := by omega
  have digits : (uint64ToString str.length).length ≤ 4 := by
    rw [uint64ToString, Decimal.length_decimal_le_iff (by decide)]
    omega
  have two : crlf.length = 2 := rfl
  obtain ⟨dig, isDig⟩ : ∃ dig, dig = (uint64ToString str.length).length := ⟨_, rfl⟩
  rw [sendInfo, n, uint64Digits_eq, ← isDig]
  dsimp only
  obtain ⟨off, isOff⟩ : ∃ off, off = 32 - (dig + 3) := ⟨_, rfl⟩
  rw [← isOff]
  obtain ⟨buf, isBuf⟩ : ∃ buf, buf = (((s.buf.copy off [StringType.char .bulkString]).copy (off + 1)
      (uint64ToString str.length)).copy (off + 1 + dig) crlf).copy s.b crlf := ⟨_, rfl⟩
  rw [← isBuf]
  have type : buf.HoldsAt off [StringType.char .bulkString] := by
    rw [isBuf]
    refine ((Block.holdsAt_copy.copy (Or.inl ?_)).copy (Or.inl ?_)).copy (Or.inl ?_)
    · exact Nat.le_refl _
    · exact Nat.le_add_right _ _
    · rw [List.length_singleton]
      omega
  have number : buf.HoldsAt (off + 1) (uint64ToString str.length) := by
    rw [isBuf]
    refine (Block.holdsAt_copy.copy (Or.inl ?_)).copy (Or.inl ?_)
    · rw [← isDig]
    · rw [← isDig]
      omega
  have line : buf.HoldsAt (off + 1 + dig) crlf := by
    rw [isBuf]
    refine Block.holdsAt_copy.copy (Or.inl ?_)
    omega
  have body : buf.HoldsAt 32 str := by
    rw [isBuf]
    refine (((fits.held.copy (Or.inr ?_)).copy (Or.inr ?_)).copy (Or.inr ?_)).copy (Or.inl ?_)
    · rw [List.length_singleton]
      omega
    · omega
    · omega
    · omega
  have ending : buf.HoldsAt s.b crlf := by
    rw [isBuf]
    exact Block.holdsAt_copy
  have header := type.append (by simpa using number)
  have front : buf.HoldsAt off ([StringType.char .bulkString] ++
      uint64ToString str.length ++ crlf) := by
    apply header.append
    rw [List.length_append, List.length_singleton, ← isDig, ← Nat.add_assoc]
    exact line
  have filled : buf.HoldsAt off ([StringType.char .bulkString] ++
      uint64ToString str.length ++ crlf ++ str) := by
    apply front.append
    rw [List.length_append, List.length_append, List.length_singleton, ← isDig, two,
      show off + (1 + dig + 2) = 32 by omega]
    exact body
  have whole : buf.HoldsAt off ([StringType.char .bulkString] ++
      uint64ToString str.length ++ crlf ++ str ++ crlf) := by
    apply filled.append
    rw [List.length_append, List.length_append, List.length_append, List.length_singleton,
      ← isDig, two, show off + (1 + dig + 2 + str.length) = s.b by omega]
    exact ending
  have total : ([StringType.char .bulkString] ++ uint64ToString str.length ++ crlf ++ str ++
      crlf).length = str.length + dig + 3 + 2 := by
    simp only [List.length_append, List.length_singleton, ← isDig, two]
    omega
  have read := whole.read
  rw [total] at read
  rw [read]
  rfl

/-- The last line end is inside the buffer unless the text leaves less space. -/
theorem sendInfo_reach (fits : s.Fits str) :
    (sendInfo s).1.reach ≤ infoLen ↔ str.length ≤ infoLen - 34 := by
  have length : infoLen = 8192 := rfl
  have short := fits.short
  have space := fits.space
  have place := fits.place
  have inside := fits.inside
  have n : infoLen - 32 - s.sz = str.length := by omega
  have digits : (uint64ToString str.length).length ≤ 4 := by
    rw [uint64ToString, Decimal.length_decimal_le_iff (by decide)]
    omega
  have two : crlf.length = 2 := rfl
  have some : uint64ToString str.length ≠ [] := Decimal.decimal_ne_nil _
  rw [sendInfo, n, uint64Digits_eq]
  dsimp only
  rw [Block.reach_copy (by decide), Block.reach_copy (by decide), Block.reach_copy some,
    Block.reach_copy (by simp), List.length_singleton, two]
  omega

end Send

section Info

variable (msg : CommandMsg) (st : InfoState)

/-- The end of the text stays inside the buffer, nothing is written outside, and the header counts
the bytes of the text that is sent. -/
structure InfoMeets : Prop where
  pointer : ∀ done, done <+: infoCalls (infoBits msg) st → (infoAfter st done).b < infoLen
  inside : (execInfo msg st).1.reach ≤ infoLen
  header : ∃ str : Bytes, (execInfo msg st).2 =
    (StringType.char .bulkString :: uint64ToString str.length ++ crlf ++ str ++ crlf).map some

end Info

/-- The information is sent as it should exactly if its text leaves room for a line end. -/
theorem execInfo_exact (msg : CommandMsg) (st : InfoState) :
    InfoMeets msg st ↔ (infoText st (infoCalls (infoBits msg) st)).length ≤ 8158 := by
  have length : infoLen = 8192 := rfl
  have run := infoStart_fits.run st (infoCalls (infoBits msg) st)
  rw [infoText]
  by_cases short : (infoTextFrom st [] (infoCalls (infoBits msg) st)).length < infoLen - 32
  · rw [if_pos short] at run
    have reach := sendInfo_reach run
    rw [← infoAfter, ← execInfo] at reach
    apply Iff.intro
    · intro meets
      have room := reach.mp meets.inside
      omega
    · intro room
      refine ⟨?_, reach.mpr (by omega), _, sendInfo_reply run⟩
      rintro done ⟨rest, split⟩
      have later := le_foldl st rest (infoAfter st done)
      rw [infoAfter, ← List.foldl_append, split] at later
      have place := run.place
      rw [infoAfter]
      omega
  · rw [if_neg short] at run
    apply iff_of_false
    · intro meets
      have pointer := meets.pointer _ (List.prefix_refl _)
      rw [infoAfter] at pointer
      omega
    · omega

section Peers

theorem infoTextFrom_append (st : InfoState) (acc : Bytes) (calls more : List InfoCall) :
    infoTextFrom st acc (calls ++ more) = infoTextFrom st (infoTextFrom st acc calls) more := by
  induction calls generalizing acc with
  | nil => rfl
  | cons call calls ih =>
      cases call with
      | xnprintf str => exact ih (acc ++ str)
      | printMapGeom => exact ih (acc ++ st.printMapGeom (infoLen - 32 - acc.length))

theorem infoTextFrom_prints (st : InfoState) (acc : Bytes) (strs : List Bytes) :
    infoTextFrom st acc (strs.map .xnprintf) = acc ++ strs.flatten := by
  induction strs generalizing acc with
  | nil => rw [List.map_nil, infoTextFrom, List.flatten_nil, List.append_nil]
  | cons str strs ih =>
      rw [List.map_cons, infoTextFrom, ih, List.flatten_cons, List.append_assoc]

/-- A server that only knows its peers. -/
def peersInfo (listen : List InfoPeer) : InfoState where
  dsVer := []
  gitHead := []
  gnuc := 13
  gnucMinor := 2
  gnucPatchlevel := 0
  pid := 1
  sysname := []
  release := []
  machine := []
  executable := none
  listen := listen
  redisClients := 0
  pubsubClients := 0
  hashStats := none
  usage := none
  memory := none
  net := ⟨0, 0, 0, 0, 0⟩
  mstring n _ := uint64ToString n
  chainText _ _ := text "0.0"
  printMapGeom _ := []
  printMapGeom_fits _ positive := positive

def infoMsg : CommandMsg := ⟨[.string .bulkString 4 (text "info")], by decide⟩

/-- Three hundred listening peers leave the end of the text outside the buffer. -/
theorem not_execInfo_peers :
    ¬InfoMeets infoMsg
      (peersInfo (List.replicate 300 ⟨text "redis", text "127.0.0.1:6379"⟩)) := by
  intro meets
  obtain ⟨listen, isListen⟩ : ∃ listen : List InfoPeer,
      listen = List.replicate 300 ⟨text "redis", text "127.0.0.1:6379"⟩ := ⟨_, rfl⟩
  rw [← isListen] at meets
  have pointer := meets.pointer _ (List.prefix_refl _)
  have run := infoStart_fits.run (peersInfo listen)
    (infoCalls (infoBits infoMsg) (peersInfo listen))
  have bits : infoBits infoMsg = 0xffff := by decide
  have long : infoLen - 32 ≤ ((infoServer (peersInfo listen)).flatten).length := by
    have each : (infoListen ⟨text "redis", text "127.0.0.1:6379"⟩).length = 38 := by decide
    have peers : ((listen.map infoListen).flatten).length = 300 * 38 := by
      rw [isListen, List.map_replicate, List.length_flatten, List.map_replicate, each,
        List.sum_replicate, smul_eq_mul]
    rw [infoServer, List.flatten_append, List.length_append,
      show (peersInfo listen).listen = listen from rfl, peers]
    have length : infoLen = 8192 := rfl
    omega
  have text : infoLen - 32 ≤ (infoTextFrom (peersInfo listen) []
      (infoCalls (infoBits infoMsg) (peersInfo listen))).length := by
    have first : ∃ rest, infoCalls (infoBits infoMsg) (peersInfo listen) =
        (infoServer (peersInfo listen)).map .xnprintf ++ rest := by
      rw [bits, infoCalls]
      simp only [List.append_assoc]
      exact ⟨_, rfl⟩
    obtain ⟨rest, split⟩ := first
    have longer := length_le_infoTextFrom (peersInfo listen)
      (infoServer (peersInfo listen)).flatten rest
    rw [split, infoTextFrom_append, infoTextFrom_prints, List.nil_append]
    exact long.trans longer
  rw [if_neg (by omega)] at run
  rw [infoAfter] at pointer
  omega

end Peers

end Raids

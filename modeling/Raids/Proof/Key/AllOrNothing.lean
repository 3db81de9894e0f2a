import Mathlib.Data.List.TakeWhile
import Raids.Proof.Key.Mset

namespace Raids.Key

open LastWrite

variable {env : KeyEnv}

/-- A list of pairs is malformed when a key has no value behind it. -/
def Malformed (msg : CommandMsg) (keys : List KeyCtx) : Prop :=
  ∃ ctx ∈ keys, givenValue msg (ctx.argn + 1) = none

/-- A command is refused when its reply is an error and the table is unchanged. -/
def RefusesAll (env : KeyEnv) (arg0 : Bytes) (db : KeyHash → Option (Entry Bytes))
    (s : CommandRun Bytes) : Prop :=
  (∃ status, status.isError ∧ s.out = sendErrString arg0 status) ∧ Unchanged env db s.db

/-- Each key has the last value that is given to it, and the other keys are unchanged. -/
def StoresPairs (env : KeyEnv) (msg : CommandMsg) (db : KeyHash → Option (Entry Bytes))
    (places : List (Nat × KeyHash)) (s : CommandRun Bytes) : Prop :=
  ∀ h,
    (∀ place, last Prod.snd places h = some place →
      ∃ value, givenValue msg (place.1 + 1) = some value ∧ s.db h = some ⟨.string, value, 0⟩) ∧
    (last Prod.snd places h = none → live env (s.db h) = live env (db h))

/-- The pairs are stored when none of the keys exists, and otherwise nothing is. -/
def MsetnxMeets (env : KeyEnv) (msg : CommandMsg) (arg0 : Bytes)
    (db : KeyHash → Option (Entry Bytes)) (keys : List KeyCtx) (order : List Nat)
    (s : CommandRun Bytes) : Prop :=
  (Malformed msg keys → RefusesAll env arg0 db s) ∧
    (¬Malformed msg keys → (∃ ctx ∈ keys, Exists env (db ctx.hash)) →
      s.out = sendInt 0 ∧ Unchanged env db s.db) ∧
    (¬Malformed msg keys → (¬∃ ctx ∈ keys, Exists env (db ctx.hash)) →
      s.out = sendInt 1 ∧ StoresPairs env msg db (executed keys order) s)

/-- A string without an expiry is live. -/
theorem live_string (forever : env.isExpired 0 = false) (value : Bytes) :
    live env (some ⟨.string, value, 0⟩) = some ⟨.string, value, 0⟩ := by
  simp [live, forever]

/-- Stores change nothing only where the keys hold the values already. -/
theorem unchanged_storeAll_iff (forever : env.isExpired 0 = false) {msg : CommandMsg}
    {db db' : KeyHash → Option (Entry Bytes)} (same : Unchanged env db db')
    {places : List (Nat × KeyHash)} (isAccepted : ∀ place ∈ places, accepted msg place) :
    Unchanged env db (storeAll msg db' places) ↔
      ∀ h place value, last Prod.snd places h = some place →
        msg.getArgStr (place.1 + 1 : Nat) = some value →
        live env (db h) = some ⟨.string, value, 0⟩ := by
  apply forall_congr'
  intro h
  rw [storeAll, writeAll_apply]
  cases isLast : last Prod.snd places h with
  | none => simpa using same h
  | some place =>
      obtain ⟨value, given⟩ : ∃ value, msg.getArgStr (place.1 + 1 : Nat) = some value :=
        Option.isSome_iff_exists.mp (isAccepted place (mem_of_last isLast).1)
      rw [Option.map_some, Option.getD_some, newString, given, Option.map_some,
        live_string forever]
      apply Iff.intro
      · intro unchanged place' value' isPlace isValue
        obtain rfl := Option.some.inj isPlace
        obtain rfl := Option.some.inj (given.symm.trans isValue)
        exact unchanged.symm
      · intro holds
        exact (holds place value rfl given).symm

/-- A key that is not there is changed by every store. -/
theorem unchanged_storeAll_dead (forever : env.isExpired 0 = false) {msg : CommandMsg}
    {db db' : KeyHash → Option (Entry Bytes)} (same : Unchanged env db db')
    {places : List (Nat × KeyHash)} (dead : ∀ place ∈ places, live env (db place.2) = none)
    (isAccepted : ∀ place ∈ places, accepted msg place) :
    Unchanged env db (storeAll msg db' places) ↔ places = [] := by
  rw [unchanged_storeAll_iff forever same isAccepted]
  apply Iff.intro
  · intro holds
    cases places with
    | nil => rfl
    | cons place rest =>
        obtain ⟨final, isLast⟩ := @exists_last _ _ _ Prod.snd _ place
          (List.mem_cons_self : place ∈ place :: rest)
        obtain ⟨member, isKey⟩ := mem_of_last isLast
        obtain ⟨value, given⟩ : ∃ value, msg.getArgStr (final.1 + 1 : Nat) = some value :=
          Option.isSome_iff_exists.mp (isAccepted final member)
        have present := holds _ final value isLast given
        rw [dead place List.mem_cons_self] at present
        cases present
  · rintro rfl h place value isLast
    cases isLast

theorem takeWhile_eq_nil {α : Type} {p : α → Bool} {l : List α} :
    l.takeWhile p = [] ↔ ∀ x ∈ l.head?, p x = false := by
  cases l with
  | nil => simp
  | cons x l => cases holds : p x <;> simp [holds]

/-- A malformed list has a value that is not accepted. -/
theorem not_accepted_of_malformed {msg : CommandMsg} {keys : List KeyCtx} {order : List Nat}
    (all : order.Perm (List.range keys.length)) (malformed : Malformed msg keys) :
    ¬∀ place ∈ executed keys order, accepted msg place := by
  intro isAccepted
  obtain ⟨ctx, member, missing⟩ := malformed
  obtain ⟨value, given⟩ : ∃ value, msg.getArgStr (ctx.argn + 1 : Nat) = some value :=
    Option.isSome_iff_exists.mp
      (isAccepted ctx.place ((mem_executed all _).mpr ⟨ctx, member, rfl⟩))
  rw [givenValue_of_getArgStr given] at missing
  cases missing

/-- An accepted list is stored as it is given. -/
theorem storesPairs_storeAll {msg : CommandMsg} {db db' : KeyHash → Option (Entry Bytes)}
    (same : Unchanged env db db') {places : List (Nat × KeyHash)}
    (isAccepted : ∀ place ∈ places, accepted msg place) {s : CommandRun Bytes}
    (stored : s.db = storeAll msg db' places) : StoresPairs env msg db places s := by
  intro h
  rw [stored, storeAll, writeAll_apply]
  apply And.intro
  · intro place isLast
    obtain ⟨value, given⟩ : ∃ value, msg.getArgStr (place.1 + 1 : Nat) = some value :=
      Option.isSome_iff_exists.mp (isAccepted place (mem_of_last isLast).1)
    refine ⟨value, givenValue_of_getArgStr given, ?_⟩
    rw [isLast, Option.map_some, Option.getD_some, newString, given, Option.map_some]
  · intro noPlace
    rw [noPlace]
    exact same h

/-- The reply to a key that is there is no number and no error. -/
theorem abortReply_ne (arg0 : Bytes) (status : ExecStatus) (v : Int) :
    line "*0" ≠ sendErrString arg0 status ∧ line "*0" ≠ sendInt v := by
  have star : (line "*0").head? = some 42 := rfl
  apply And.intro
  · intro same
    rw [same, head_sendErrString] at star
    cases star
  · intro same
    rw [same] at star
    simp [sendInt, integerChar] at star

theorem storedReply_msetnx : storedReply .msetnxCmd = sendInt 1 := rfl

/-- The keys of MSETNX are all or nothing under the condition only: none of them is there, and all
values are accepted or a malformed list is refused by the first key of the order. -/
theorem execMsetnx_meets (works : env.Works) (forever : env.isExpired 0 = false)
    (msg : CommandMsg) (arg0 : Bytes) (db : KeyHash → Option (Entry Bytes))
    {keys : List KeyCtx} (some : keys ≠ []) (first : ∀ ctx ∈ keys, ctx.dep = 0) {order : List Nat}
    (all : order.Perm (List.range keys.length)) :
    ∃ s, runKeys (execMsetnx env msg) .string arg0 (2 * keys.length) order
        { db := db, keys := keys } = Option.some s ∧
      (MsetnxMeets env msg arg0 db keys order s ↔
        (∀ ctx ∈ keys, live env (db ctx.hash) = none) ∧
          ((∀ ctx ∈ keys, accepted msg ctx.place) ∨
            Malformed msg keys ∧
              ∀ place ∈ (executed keys order).head?, accepted msg place = false)) := by
  obtain ⟨s, ran, stores, aborts⟩ := execMsetnx_run works msg arg0 db some first all
  refine ⟨s, ran, ?_⟩
  by_cases dead : ∀ ctx ∈ keys, live env (db ctx.hash) = none
  · obtain ⟨db', same, whole, upTo⟩ := stores dead
    have noKey : ¬∃ ctx ∈ keys, Exists env (db ctx.hash) := by
      rintro ⟨ctx, member, e, isLive, -⟩
      rw [dead ctx member] at isLive
      cases isLive
    have places : (∀ place ∈ executed keys order, accepted msg place) ↔
        ∀ ctx ∈ keys, accepted msg ctx.place := by
      simp [mem_executed all]
    rw [← places]
    by_cases isAccepted : ∀ place ∈ executed keys order, accepted msg place
    · obtain ⟨reply, table⟩ := whole isAccepted
      apply iff_of_true
      · refine ⟨fun malformed => absurd isAccepted (not_accepted_of_malformed all malformed),
          fun _ present => absurd present noKey, fun _ _ => ?_⟩
        exact ⟨reply.trans storedReply_msetnx, storesPairs_storeAll same isAccepted table⟩
      · exact ⟨dead, Or.inl isAccepted⟩
    · obtain ⟨reply, table⟩ := upTo isAccepted
      by_cases malformed : Malformed msg keys
      · have deadPlaces : ∀ place ∈ (executed keys order).takeWhile (accepted msg),
            live env (db place.2) = none := by
          intro place member
          obtain ⟨ctx, isKey, rfl⟩ :=
            (mem_executed all place).mp (List.takeWhile_sublist _ |>.subset member)
          exact dead ctx isKey
        have noStore := unchanged_storeAll_dead forever same deadPlaces
          (fun place member => List.mem_takeWhile_imp member)
        rw [takeWhile_eq_nil] at noStore
        apply Iff.intro
        · rintro ⟨refuses, -, -⟩
          exact ⟨dead, Or.inr ⟨malformed, noStore.mp (table ▸ (refuses malformed).2)⟩⟩
        · rintro ⟨-, whole | ⟨-, head⟩⟩
          · exact absurd whole isAccepted
          · refine ⟨fun _ => ⟨⟨_, rfl, reply⟩, ?_⟩, fun not => absurd malformed not,
              fun not => absurd malformed not⟩
            rw [table]
            exact noStore.mpr head
      · apply iff_of_false
        · rintro ⟨-, -, absent⟩
          exact sendErrString_ne_sendInt arg0 _ 1 (reply.symm.trans (absent malformed noKey).1)
        · rintro ⟨-, whole | ⟨isMalformed, -⟩⟩
          · exact isAccepted whole
          · exact malformed isMalformed
  · obtain ⟨reply, same⟩ := aborts dead
    apply iff_of_false
    · rintro ⟨malformed, exist, absent⟩
      by_cases isMalformed : Malformed msg keys
      · obtain ⟨⟨status, -, error⟩, -⟩ := malformed isMalformed
        exact (abortReply_ne arg0 status 0).1 (reply.symm.trans error)
      · by_cases present : ∃ ctx ∈ keys, Exists env (db ctx.hash)
        · exact (abortReply_ne arg0 .execOk 0).2 (reply.symm.trans (exist isMalformed present).1)
        · exact (abortReply_ne arg0 .execOk 1).2 (reply.symm.trans (absent isMalformed present).1)
    · exact fun meets => dead meets.1

/-- The keys of MSET are stored up to the first value that is not accepted, so a malformed list
changes nothing only where the keys before it hold their values already. -/
theorem execMset_meets (works : env.Works) (forever : env.isExpired 0 = false)
    (msg : CommandMsg) (arg0 : Bytes) (db : KeyHash → Option (Entry Bytes))
    {keys : List KeyCtx} (some : keys ≠ []) (first : ∀ ctx ∈ keys, ctx.dep = 0) {order : List Nat}
    (all : order.Perm (List.range keys.length)) :
    ∃ s, runKeys (execMset env msg) .string arg0 (2 * keys.length) order
        { db := db, keys := keys } = Option.some s ∧
      ((Malformed msg keys → RefusesAll env arg0 db s) ↔
        (Malformed msg keys → ∀ h place value,
          last Prod.snd ((executed keys order).takeWhile (accepted msg)) h = Option.some place →
          msg.getArgStr (place.1 + 1 : Nat) = Option.some value →
          live env (db h) = Option.some ⟨.string, value, 0⟩)) := by
  have length : order.length = keys.length := by rw [all.length_eq, List.length_range]
  obtain ⟨s, ran, result⟩ := @runKeys_stores env .msetCmd msg (execMset env msg) 0 works arg0
    (fun _ _ _ => rfl) keys.length order { db := db, keys := keys }
    (by
      rintro rfl
      rw [List.length_nil] at length
      exact some (List.eq_nil_of_length_eq_zero length.symm))
    (fun i member => List.mem_range.mp (all.mem_iff.mp member)) first
    (by rw [length]; exact Nat.zero_add _)
  rw [length, ← two_mul] at ran
  refine ⟨s, ran, forall_congr' fun malformed => ?_⟩
  rw [if_neg (not_accepted_of_malformed all malformed)] at result
  obtain ⟨reply, table⟩ := result
  rw [← unchanged_storeAll_iff forever (fun _ => rfl)
    (fun place member => List.mem_takeWhile_imp member), RefusesAll, table]
  exact and_iff_right ⟨_, rfl, reply⟩

/-- MSETNX and MSET are all or nothing under these conditions only, in every order of the keys. -/
theorem multiStores_exact (works : env.Works) (forever : env.isExpired 0 = false)
    (msg : CommandMsg) (arg0 : Bytes) (db : KeyHash → Option (Entry Bytes))
    {keys : List KeyCtx} (some : keys ≠ []) (first : ∀ ctx ∈ keys, ctx.dep = 0) {order : List Nat}
    (all : order.Perm (List.range keys.length)) :
    (∃ s, runKeys (execMsetnx env msg) .string arg0 (2 * keys.length) order
        { db := db, keys := keys } = Option.some s ∧
      (MsetnxMeets env msg arg0 db keys order s ↔
        (∀ ctx ∈ keys, live env (db ctx.hash) = none) ∧
          ((∀ ctx ∈ keys, accepted msg ctx.place) ∨
            Malformed msg keys ∧
              ∀ place ∈ (executed keys order).head?, accepted msg place = false))) ∧
    (∃ s, runKeys (execMset env msg) .string arg0 (2 * keys.length) order
        { db := db, keys := keys } = Option.some s ∧
      ((Malformed msg keys → RefusesAll env arg0 db s) ↔
        (Malformed msg keys → ∀ h place value,
          last Prod.snd ((executed keys order).takeWhile (accepted msg)) h = Option.some place →
          msg.getArgStr (place.1 + 1 : Nat) = Option.some value →
          live env (db h) = Option.some ⟨.string, value, 0⟩))) :=
  ⟨execMsetnx_meets works forever msg arg0 db some first all,
    execMset_meets works forever msg arg0 db some first all⟩

/-- A request for two pairs. -/
def msetnxMsg : CommandMsg :=
  ⟨commandWords ["msetnx", "a", "1", "b", "2"], by simp [commandWords]⟩

def twoKeys : List KeyCtx :=
  [{ argn := 1, hash := ⟨1, 0⟩ }, { argn := 3, hash := ⟨2, 0⟩ }]

/-- Two pairs are stored in either order. -/
theorem multiStores_exact_reversed :
    ∃ s, runKeys (execMsetnx quietEnv msetnxMsg) .string [] 4 [1, 0]
        { db := fun _ => none, keys := twoKeys } = some s ∧
      MsetnxMeets quietEnv msetnxMsg [] (fun _ => none) twoKeys [1, 0] s := by
  obtain ⟨⟨s, ran, exact⟩, -⟩ := @multiStores_exact quietEnv quietEnv_works rfl msetnxMsg []
    (fun _ => none) twoKeys (by decide) (by decide) [1, 0] (by decide)
  refine ⟨s, ran, exact.mpr ⟨fun _ _ => rfl, Or.inl ?_⟩⟩
  decide

/-- The reply to a key that is there is an empty array. -/
theorem not_multiStores_exact :
    ¬∃ s, runKeys (execMsetnx quietEnv msetnxMsg) .string [] 4 [0, 1]
        { db := fun h => if h = ⟨2, 0⟩ then some ⟨.string, [4], 0⟩ else none,
          keys := twoKeys } = some s ∧
      MsetnxMeets quietEnv msetnxMsg []
        (fun h => if h = ⟨2, 0⟩ then some ⟨.string, [4], 0⟩ else none) twoKeys [0, 1] s := by
  rintro ⟨s, ran, -, exist, -⟩
  have facts : (runKeys (execMsetnx quietEnv msetnxMsg) .string [] 4 [0, 1]
        { db := fun h => if h = ⟨2, 0⟩ then some ⟨.string, [4], 0⟩ else none,
          keys := twoKeys }).map CommandRun.out = some (line "*0") ∧
      ∀ ctx ∈ twoKeys, givenValue msetnxMsg (ctx.argn + 1) ≠ none := by
    decide
  rw [ran, Option.map_some, Option.some.injEq] at facts
  have wellFormed : ¬Malformed msetnxMsg twoKeys := by
    rintro ⟨ctx, member, missing⟩
    exact facts.2 ctx member missing
  have reply := (exist wellFormed ⟨{ argn := 3, hash := ⟨2, 0⟩ }, by decide,
    ⟨.string, [4], 0⟩, rfl, by decide⟩).1
  exact (abortReply_ne [] .execOk 0).2 (facts.1.symm.trans reply)

end Raids.Key

import Raids.Library.Machine
import Raids.Proof.Pubsub.Subscriptions

namespace Raids.Pubsub
open Announcement

section Loop

variable {env : RouteEnv} {exec : Subscriber} {sub : Bytes} {kind : SubKind}

theorem Subscriber.Sound.channels_card (sound : exec.Sound env) :
    exec.subscriptions.channels.card = exec.subTab.subCount := by
  rw [Subscriber.subscriptions, List.toFinset_card_of_nodup, List.length_map, sound.subTab.subs,
    List.countP_eq_length_filter]
  exact sound.subTab.unique.sublist (List.filter_sublist.map _)

/-- The table lists each pattern once. -/
theorem Subscriber.Sound.patterns_nodup (sound : exec.Sound env) :
    (exec.patTab.tab.flatMap fun rt => rt.list.map RedisWildMatch.mark).Nodup := by
  rw [List.nodup_flatMap]
  refine ⟨fun rt member => ?_, ?_⟩
  · obtain ⟨w, holds⟩ := sound.patTab.single rt member
    simp [holds.list]
  · refine (List.pairwise_map.mp sound.patTab.unique).imp_of_mem ?_
    intro first second member inside differ p one other
    obtain ⟨w, listed, rfl⟩ := List.mem_map.mp one
    obtain ⟨v, again, same⟩ := List.mem_map.mp other
    have reads := literal_of_listed sound member listed
    have equal : v.value = w.value := congrArg Prod.fst same
    rw [← equal, literal_of_listed sound inside again, Option.some.injEq] at reads
    exact differ reads.symm

theorem Subscriber.Sound.patterns_card (sound : exec.Sound env) :
    exec.subscriptions.patterns.card = exec.patTab.subCount := by
  have one : ∀ rt ∈ exec.patTab.tab, (rt.list.map RedisWildMatch.mark).length = 1 := by
    intro rt member
    obtain ⟨w, holds⟩ := sound.patTab.single rt member
    simp [holds.list]
  rw [Subscriber.subscriptions, List.toFinset_card_of_nodup sound.patterns_nodup,
    List.length_flatMap, RedisPatternMap.subCount, List.map_congr_left one]
  simp

theorem Subscriber.Sound.total_eq (sound : exec.Sound env) :
    exec.total = exec.subscriptions.count := by
  rw [Subscriptions.count, sound.channels_card, sound.patterns_card, Subscriber.total]

/-- The subject that is taken next is one that is left. -/
theorem next_mem_left (works : env.Works) (sound : exec.Sound env)
    (found : kind.next env exec = some sub) : env.pref ++ sub ∈ exec.subscriptions.left kind := by
  cases kind with
  | subscribe => exact absurd found (by simp [SubKind.next])
  | psubscribe => exact absurd found (by simp [SubKind.next])
  | unsubscribe =>
      obtain ⟨rt, first, rfl⟩ := Option.map_eq_some_iff.mp found
      have route : rt.isRoute := by simpa [rt.isContinue_eq] using List.find?_some first
      have member := (works.subWalk _).mem_iff.mp (List.mem_of_find?_eq_some first)
      rw [(List.prefix_iff_eq_append.mp (sound.subTab.named rt member route))]
      exact mem_channels.mpr ⟨rt, member, route, rfl⟩
  | punsubscribe =>
      obtain ⟨w, first, rfl⟩ := Option.map_eq_some_iff.mp found
      obtain ⟨rt, walked, finds⟩ := List.exists_of_findSome?_eq_some first
      have member := (works.patWalk _).mem_iff.mp walked
      have listed := List.mem_of_find?_eq_some finds
      have other := List.find?_some finds
      obtain ⟨v, holds⟩ := sound.patTab.single rt member
      have same := listed
      rw [holds.list, List.mem_singleton] at same
      rw [(List.prefix_iff_eq_append.mp (same ▸ holds.named))]
      rw [Subscriptions.left, Finset.mem_image]
      refine ⟨w.mark, Finset.mem_filter.mpr ⟨mem_patterns.mpr ⟨rt, member, w, listed, rfl⟩, ?_⟩, rfl⟩
      simpa [RedisWildMatch.mark] using other

/-- Nothing is taken where nothing is left. -/
theorem left_of_next_none (works : env.Works)
    (absent : kind.next env exec = none) : exec.subscriptions.left kind = ∅ := by
  cases kind with
  | subscribe => rfl
  | psubscribe => rfl
  | unsubscribe =>
      rw [Finset.eq_empty_iff_forall_notMem]
      intro sub channel
      obtain ⟨rt, member, route, rfl⟩ := mem_channels.mp channel
      rw [SubKind.next, Option.map_eq_none_iff, List.find?_eq_none] at absent
      have passed := absent rt ((works.subWalk _).mem_iff.mpr member)
      rw [rt.isContinue_eq, route] at passed
      exact passed rfl
  | punsubscribe =>
      rw [Finset.eq_empty_iff_forall_notMem]
      intro sub pattern
      rw [Subscriptions.left, Finset.mem_image] at pattern
      obtain ⟨p, kept, rfl⟩ := pattern
      rw [Finset.mem_filter] at kept
      obtain ⟨rt, member, w, listed, rfl⟩ := mem_patterns.mp kept.1
      rw [SubKind.next, Option.map_eq_none_iff, List.findSome?_eq_none_iff] at absent
      have passed := absent rt ((works.patWalk _).mem_iff.mpr member)
      rw [List.find?_eq_none] at passed
      have not := passed w listed
      have mark := kept.2
      simp only [RedisWildMatch.mark, decide_eq_false_iff_not] at mark
      exact not (by simpa using mark)

theorem left_one {t : Subscriptions} (taken : env.pref ++ sub ∈ t.left kind) :
    (t.one env kind sub).left kind = (t.left kind).erase (env.pref ++ sub) := by
  cases kind with
  | subscribe => exact absurd taken (Finset.notMem_empty _)
  | psubscribe => exact absurd taken (Finset.notMem_empty _)
  | unsubscribe => rfl
  | punsubscribe =>
      ext other
      simp only [Subscriptions.one, Subscriptions.left, Finset.mem_image, Finset.mem_filter,
        Finset.mem_erase]
      constructor
      · rintro ⟨p, ⟨⟨member, differs⟩, mark⟩, rfl⟩
        exact ⟨differs, p, ⟨member, mark⟩, rfl⟩
      · rintro ⟨differs, p, ⟨member, mark⟩, rfl⟩
        exact ⟨p, ⟨⟨member, differs⟩, mark⟩, rfl⟩

/-- The reply to one subject as a message. -/
def subMessage (kind : SubKind) (reply : Bytes × Nat) : RedisMsg :=
  .array 3 [bulk kind.name, bulk reply.1, .integer reply.2]

/-- The replies to subjects as bytes. -/
def packAll (kind : SubKind) (replies : List (Bytes × Nat)) : Bytes :=
  replies.flatMap fun reply => (subMessage kind reply).pack

theorem subReply_eq (kind : SubKind) (sub : Bytes) (cval : Nat) :
    subReply kind sub cval = (subMessage kind (sub, cval)).pack := by
  have header : kind.hdr = arrayChar :: int64ToString 3 ++ crlf ++ (bulk kind.name).pack := by
    cases kind <;> decide
  have natural : int64ToString cval = uint64ToString cval := by
    rw [int64ToString, if_neg (by omega), Int.natAbs_natCast]
  have three : ∀ first second third : RedisMsg, RedisMsg.pack.packArray 3 [first, second, third] =
      first.pack ++ (second.pack ++ (third.pack ++ [])) := fun _ _ _ => rfl
  have packs : (RedisMsg.integer cval).pack = integerChar :: uint64ToString cval ++ crlf := by
    rw [RedisMsg.pack, natural]
  rw [subReply, subMessage, header, RedisMsg.pack, show (3 : Int).toNat = 3 from rfl, three, packs,
    pack_bulk sub]
  simp only [List.append_assoc, List.cons_append, List.nil_append, List.append_nil]

/-- A command that runs has come to these subscriptions. -/
structure DoSub.Meets (env : RouteEnv) (st : DoSub) (t : Subscriptions) : Prop where
  sound : st.exec.Sound env
  subscriptions : st.exec.subscriptions = t
  cnt : st.cnt = t.count

/-- The bytes with the replies of the segment. -/
def DoSub.written (kind : SubKind) (st : DoSub) : Bytes := st.out ++ packAll kind st.replies

variable {st : DoSub} {t : Subscriptions}

theorem out_flush : (st.flush kind).out = st.written kind := by
  simp only [DoSub.flush, DoSub.written, packAll, subReply_eq]

theorem written_segment : (st.segment kind).written kind = st.written kind := by
  rw [DoSub.segment]
  split_ifs
  · rw [DoSub.written, out_flush]
    simp [DoSub.flush, packAll]
  · rfl

theorem DoSub.Meets.flush (meets : st.Meets env t) : (st.flush kind).Meets env t :=
  ⟨meets.sound, meets.subscriptions, meets.cnt⟩

theorem DoSub.Meets.segment (meets : st.Meets env t) : (st.segment kind).Meets env t := by
  rw [DoSub.segment]
  split_ifs
  · exact meets.flush
  · exact meets

/-- Each of the four commands does what it is for. -/
theorem one_took (works : env.Works) (sound : exec.Sound env) (sub : Bytes)
    (compiles : kind = .psubscribe → env.Compiles (env.pref ++ sub)) :
    Took env kind exec sub (kind.one env exec sub) := by
  cases kind with
  | subscribe => exact doSubscribeCb_took sound sub
  | unsubscribe => exact doUnsubscribe_took sound sub
  | psubscribe => exact doPsubscribeCb_took works sound sub (compiles rfl)
  | punsubscribe => exact doPunsubscribe_took works sound sub

theorem DoSub.Meets.turn (works : env.Works) (meets : st.Meets env t)
    (compiles : kind = .psubscribe → env.Compiles (env.pref ++ sub)) :
    (st.turn env kind sub).Meets env (t.one env kind sub) ∧
      (st.turn env kind sub).out = st.out ∧
      (st.turn env kind sub).replies = st.replies ++ [(sub, (t.one env kind sub).count)] := by
  have took := one_took works meets.sound sub compiles
  have start : st.cnt = st.exec.total := by
    rw [meets.cnt, meets.sound.total_eq, meets.subscriptions]
  have ends := took.sound.total_eq
  rw [took.subscriptions, meets.subscriptions, took.total, ← start] at ends
  refine ⟨⟨took.sound, ?_, ends⟩, rfl, ?_⟩
  · rw [← meets.subscriptions]
    exact took.subscriptions
  · rw [← ends]
    rfl

theorem DoSub.Meets.written_turn (works : env.Works) (meets : st.Meets env t)
    (compiles : kind = .psubscribe → env.Compiles (env.pref ++ sub)) (subs : List Bytes) :
    (st.turn env kind sub).written kind ++
        packAll kind ((t.one env kind sub).replies env kind subs).1 =
      st.written kind ++ packAll kind (t.replies env kind (sub :: subs)).1 := by
  obtain ⟨-, out, replies⟩ := meets.turn works compiles
  rw [DoSub.written, DoSub.written, out, replies, List.append_assoc, List.append_assoc, packAll,
    packAll, packAll, packAll, List.flatMap_append, List.append_assoc, ← List.flatMap_append]
  rfl

/-- The subjects that a command names are taken in their order. -/
theorem doSubLoop_named (works : env.Works) (subs : List Bytes) (some : subs ≠ []) {fuel : Nat}
    (enough : subs.length ≤ fuel) (meets : st.Meets env t)
    (compiles : ∀ sub ∈ subs, kind = .psubscribe → env.Compiles (env.pref ++ sub)) :
    ∃ st', doSubLoop env kind fuel (subs.map Option.some) st = Option.some (.execOk, st') ∧
      st'.Meets env (t.replies env kind subs).2 ∧
      st'.out = st.written kind ++ packAll kind (t.replies env kind subs).1 := by
  induction subs generalizing st t fuel with
  | nil => exact absurd rfl some
  | cons sub subs ih =>
      obtain ⟨fuel, rfl⟩ : ∃ more, fuel = more + 1 :=
        Nat.exists_eq_succ_of_ne_zero (by rw [List.length_cons] at enough; omega)
      obtain ⟨next, -, -⟩ := meets.turn works (compiles sub List.mem_cons_self)
      have written := meets.written_turn works (compiles sub List.mem_cons_self) subs
      rw [List.map_cons, doSubLoop]
      cases subs with
      | nil => exact ⟨_, rfl, next.flush, out_flush.trans ((List.append_nil _).symm.trans written)⟩
      | cons other subs =>
          have rest : (other :: subs).length ≤ fuel := Nat.le_of_succ_le_succ enough
          obtain ⟨st', runs, ends, bytes⟩ := ih (List.cons_ne_nil _ _) rest next.segment
            fun sub member => compiles sub (List.mem_cons_of_mem _ member)
          refine ⟨st', ?_, ends, ?_⟩
          · simpa using runs
          · rw [bytes, written_segment, written]

/-- A subject that is no string cuts the command short behind the segments that were written. -/
theorem doSubLoop_cut (works : env.Works) (subs : List Bytes) (rest : List (Option Bytes))
    {fuel : Nat} (enough : subs.length < fuel) (meets : st.Meets env t)
    (begun : st.replies.length < 8)
    (compiles : ∀ sub ∈ subs, kind = .psubscribe → env.Compiles (env.pref ++ sub)) :
    ∃ st', doSubLoop env kind fuel (subs.map Option.some ++ none :: rest) st =
        Option.some (.errBadArgs, st') ∧
      st'.Meets env (t.replies env kind subs).2 ∧
      st'.out = st.out ++ packAll kind ((st.replies ++ (t.replies env kind subs).1).take
        (8 * ((st.replies.length + subs.length) / 8))) := by
  induction subs generalizing st t fuel with
  | nil =>
      obtain ⟨fuel, rfl⟩ : ∃ more, fuel = more + 1 := Nat.exists_eq_succ_of_ne_zero (by omega)
      refine ⟨st, rfl, meets, ?_⟩
      rw [List.length_nil, Nat.add_zero, Nat.div_eq_of_lt begun]
      simp [packAll]
  | cons sub subs ih =>
      obtain ⟨fuel, rfl⟩ : ∃ more, fuel = more + 1 := Nat.exists_eq_succ_of_ne_zero (by omega)
      obtain ⟨next, out, replies⟩ := meets.turn works (compiles sub List.mem_cons_self)
      have shorter : subs.length < fuel := by
        rw [List.length_cons] at enough
        omega
      have others := fun sub member => compiles sub (List.mem_cons_of_mem _ member)
      have going : (subs.map Option.some ++ none :: rest).isEmpty = false := by
        cases subs <;> rfl
      rw [List.map_cons, List.cons_append, doSubLoop]
      simp only [going, Bool.false_eq_true, if_false]
      have length : (st.turn env kind sub).replies.length = st.replies.length + 1 := by
        rw [replies, List.length_append, List.length_singleton]
      have all : (t.replies env kind (sub :: subs)).1 =
          (sub, (t.one env kind sub).count) :: ((t.one env kind sub).replies env kind subs).1 := rfl
      by_cases full : (st.turn env kind sub).replies.length = 8
      · have segment : (st.turn env kind sub).segment kind = (st.turn env kind sub).flush kind :=
          if_pos full
        have empty : ((st.turn env kind sub).flush kind).replies = [] := rfl
        obtain ⟨st', runs, ends, bytes⟩ := ih shorter next.flush (Nat.succ_pos 7) others
        refine ⟨st', ?_, ends, ?_⟩
        · rw [segment]
          exact runs
        · have turns : 8 * ((st.replies.length + (sub :: subs).length) / 8) =
              (st.replies ++ [(sub, (t.one env kind sub).count)]).length + 8 * (subs.length / 8) := by
            rw [← replies, full, List.length_cons]
            omega
          have joined : st.replies ++ (t.replies env kind (sub :: subs)).1 =
              st.replies ++ [(sub, (t.one env kind sub).count)] ++
                ((t.one env kind sub).replies env kind subs).1 := by
            rw [all, List.append_assoc, List.singleton_append]
          rw [bytes, out_flush, DoSub.written, out, replies, empty, turns, joined,
            List.take_length_add_append, List.nil_append, List.length_nil, Nat.zero_add]
          simp only [packAll, List.flatMap_append, List.append_assoc]
      · have segment : (st.turn env kind sub).segment kind = st.turn env kind sub := if_neg full
        obtain ⟨st', runs, ends, bytes⟩ := ih shorter next (by omega) others
        refine ⟨st', ?_, ends, ?_⟩
        · rw [segment]
          exact runs
        · have turns : (st.turn env kind sub).replies.length + subs.length =
              st.replies.length + (sub :: subs).length := by
            rw [length, List.length_cons]
            omega
          rw [bytes, turns, out, replies, all, List.append_assoc, List.singleton_append]

/-- All that are left are taken. -/
theorem doSubLoop_all (works : env.Works) {fuel : Nat} (enough : (t.left kind).card < fuel)
    (meets : st.Meets env t) :
    ∃ st' subs, doSubLoop env kind fuel [] st = Option.some (.execOk, st') ∧
      ((subs.map (env.pref ++ ·) : List Bytes) : Multiset Bytes) = (t.left kind).val ∧
      st'.Meets env (t.replies env kind subs).2 ∧
      st'.out = st.written kind ++ packAll kind (t.replies env kind subs).1 := by
  induction fuel generalizing st t with
  | zero => exact absurd enough (Nat.not_lt_zero _)
  | succ fuel ih =>
      rw [doSubLoop]
      cases found : kind.next env st.exec with
      | none =>
          have empty := left_of_next_none works found
          rw [meets.subscriptions] at empty
          refine ⟨st.flush kind, [], rfl, ?_, meets.flush, ?_⟩
          · rw [empty]
            rfl
          · rw [out_flush]
            exact (List.append_nil _).symm
      | some sub =>
          have taken := next_mem_left works meets.sound found
          rw [meets.subscriptions] at taken
          have notAdd : kind ≠ .psubscribe := by
            rintro rfl
            exact absurd taken (Finset.notMem_empty _)
          have quiet : kind = .psubscribe → env.Compiles (env.pref ++ sub) :=
            fun is => absurd is notAdd
          obtain ⟨next, -, -⟩ := meets.turn works quiet
          have less : ((t.one env kind sub).left kind).card < fuel := by
            have shrunk := Finset.card_erase_of_mem taken
            have some := Finset.card_pos.mpr ⟨_, taken⟩
            rw [left_one taken]
            omega
          obtain ⟨st', subs, runs, all, ends, bytes⟩ := ih less next.segment
          refine ⟨st', sub :: subs, runs, ?_, ends, ?_⟩
          · rw [List.map_cons, ← Multiset.cons_coe, all, left_one taken, Finset.erase_val,
              Multiset.cons_erase taken]
          · rw [bytes, written_segment]
            exact meets.written_turn works quiet subs

end Loop

/-- What the client of a command sees: what it named was taken, or all that was left. -/
inductive Subscriptions.Answers (env : RouteEnv) (kind : SubKind) (t : Subscriptions) :
    List (Option Bytes) → ExecStatus × Bytes → Subscriptions → Prop
  | all (subs : List Bytes)
      (each : ((subs.map (env.pref ++ ·) : List Bytes) : Multiset Bytes) = (t.left kind).val) :
      Answers env kind t [] (.execOk, packAll kind (t.replies env kind subs).1)
        (t.replies env kind subs).2
  | named (subs : List Bytes) (some : subs ≠ []) :
      Answers env kind t (subs.map Option.some) (.execOk, packAll kind (t.replies env kind subs).1)
        (t.replies env kind subs).2
  | cut (subs : List Bytes) (rest : List (Option Bytes)) :
      Answers env kind t (subs.map Option.some ++ none :: rest)
        (.errBadArgs, packAll kind ((t.replies env kind subs).1.take (8 * (subs.length / 8))))
        (t.replies env kind subs).2

section Command

variable {env : RouteEnv} {exec : Subscriber} {kind : SubKind}

theorem left_card_le (sound : exec.Sound env) :
    (exec.subscriptions.left kind).card ≤
      exec.subTab.tab.length + (exec.patTab.tab.map fun rt => rt.list.length).sum := by
  cases kind with
  | subscribe => exact Nat.zero_le _
  | psubscribe => exact Nat.zero_le _
  | unsubscribe =>
      have channels := sound.channels_card
      have counted := sound.subTab.subs
      have most := List.countP_le_length (p := (·.isRoute)) (l := exec.subTab.tab)
      rw [Subscriptions.left, channels, counted]
      omega
  | punsubscribe =>
      have images := Finset.card_image_le (s := exec.subscriptions.patterns.filter (·.2 = false))
        (f := Prod.fst)
      have kept := Finset.card_filter_le exec.subscriptions.patterns (·.2 = false)
      have listed := List.toFinset_card_le
        (exec.patTab.tab.flatMap fun rt => rt.list.map RedisWildMatch.mark)
      simp only [List.length_flatMap, List.length_map] at listed
      rw [Subscriptions.left]
      exact images.trans (kept.trans (listed.trans (Nat.le_add_left _ _)))

/-- A list of arguments names subjects only, or up to one that is no string. -/
theorem args_cases (args : List (Option Bytes)) :
    ∃ subs : List Bytes, args = subs.map some ∨ ∃ rest, args = subs.map some ++ none :: rest := by
  induction args with
  | nil => exact ⟨[], Or.inl rfl⟩
  | cons arg args ih =>
      cases arg with
      | none => exact ⟨[], Or.inr ⟨args, rfl⟩⟩
      | some sub =>
          obtain ⟨subs, rfl | ⟨rest, rfl⟩⟩ := ih
          · exact ⟨sub :: subs, Or.inl rfl⟩
          · exact ⟨sub :: subs, Or.inr ⟨rest, rfl⟩⟩

/-- A command returns, and its client sees what was taken. -/
theorem doSub_answers (works : env.Works) (sound : exec.Sound env) (msg : CommandMsg)
    (compiles : kind = .psubscribe → ∀ sub, some sub ∈ subjects msg → env.Compiles (env.pref ++ sub)) :
    ∃ status st, doSub env kind exec msg = some (status, st) ∧ st.exec.Sound env ∧
      exec.subscriptions.Answers env kind (subjects msg) (status, st.out) st.exec.subscriptions := by
  have meets : DoSub.Meets env
      { exec := exec, cnt := exec.subTab.subCount + exec.patTab.subCount } exec.subscriptions :=
    ⟨sound, rfl, sound.total_eq⟩
  have patterns : ∀ subs : List Bytes, (∀ sub ∈ subs, some sub ∈ subjects msg) →
      ∀ sub ∈ subs, kind = .psubscribe → env.Compiles (env.pref ++ sub) :=
    fun subs named sub member is => compiles is sub (named sub member)
  rw [doSub]
  obtain ⟨subs, names | ⟨rest, names⟩⟩ := args_cases (subjects msg)
  · cases subs with
    | nil =>
        have enough : (exec.subscriptions.left kind).card < subTurns exec [] := by
          have most : (exec.subscriptions.left kind).card ≤ _ := left_card_le sound
          rw [subTurns, List.length_nil]
          omega
        obtain ⟨st, subs, runs, each, ends, bytes⟩ := doSubLoop_all works enough meets
        rw [List.map_nil] at names
        rw [names]
        refine ⟨_, st, runs, ends.sound, ?_⟩
        rw [bytes, ends.subscriptions]
        exact .all subs each
    | cons sub subs =>
        have enough : (sub :: subs).length ≤ subTurns exec (subjects msg) := by
          rw [subTurns, names, List.length_map]
          omega
        have all := patterns (sub :: subs) fun other member => by
          rw [names]
          exact List.mem_map_of_mem member
        obtain ⟨st, runs, ends, bytes⟩ :=
          doSubLoop_named works (sub :: subs) (List.cons_ne_nil _ _) enough meets all
        rw [← names] at runs
        refine ⟨_, st, runs, ends.sound, ?_⟩
        rw [bytes, ends.subscriptions, names]
        exact .named (sub :: subs) (List.cons_ne_nil _ _)
  · have enough : subs.length < subTurns exec (subjects msg) := by
      rw [subTurns, names, List.length_append, List.length_map]
      omega
    have all := patterns subs fun other member => by
      rw [names]
      exact List.mem_append_left _ (List.mem_map_of_mem member)
    obtain ⟨st, runs, ends, bytes⟩ :=
      doSubLoop_cut works subs rest enough meets (Nat.succ_pos 7) all
    rw [← names] at runs
    refine ⟨_, st, runs, ends.sound, ?_⟩
    rw [bytes, ends.subscriptions, names]
    have begun : (0 : Nat) + subs.length = subs.length := Nat.zero_add _
    simp only [List.length_nil, begun, List.nil_append]
    exact .cut subs rest

end Command

/-- A connection as its client knows it. -/
structure Client where
  subs : Subscriptions := {}
  waiting : List RedisContinueMsg := []

/-- What an action is for. -/
def Client.Act (env : RouteEnv) (c : Client) : Action → Option (ExecStatus × Bytes) → Client → Prop
  | .command kind msg, out, c' =>
      ∃ answer t, out = some answer ∧ c.subs.Answers env kind (subjects msg) answer t ∧
        c' = { c with subs := t }
  | .session sess, out, c' =>
      out = some (.execOk, []) ∧
        c' = { c with
          subs :=
            if sess.length = 0 ∨ env.maxSessionLen ≤ sess.length then c.subs
            else c.subs.addPattern env (env.pref ++ (text "_INBOX." ++ sess ++ text ".*")) true }
  | .block subs, out, c' =>
      out = some (.execOk, []) ∧
        c' =
          { subs := c.subs.wait subs
            waiting := c.waiting ++ [{ subs := subs, contTab := c.subs.takes subs }] }
  | .complete idx, out, c' =>
      out = some (.execOk, []) ∧
        c' =
          match c.waiting[idx]? with
          | none => c
          | some cm =>
              { subs := if cm.contTab then c.subs.done cm.subs else c.subs
                waiting := c.waiting.eraseIdx idx }

/-- The patterns of an action compile. -/
def Action.Compiles (env : RouteEnv) : Action → Prop
  | .command kind msg =>
      kind = .psubscribe → ∀ sub, some sub ∈ subjects msg → env.Compiles (env.pref ++ sub)
  | .session sess => env.Compiles (env.pref ++ (text "_INBOX." ++ sess ++ text ".*"))
  | _ => True

/-- The tables of a connection are sound, and stand for what its client knows. -/
structure Connection.Meets (env : RouteEnv) (c : Connection) (client : Client) : Prop where
  sound : c.exec.Sound env
  subscriptions : c.exec.subscriptions = client.subs
  waiting : c.waiting = client.waiting

section System

variable {env : RouteEnv} {exec : Subscriber}

theorem Subscriber.sound_empty : Subscriber.Sound env {} where
  subTab := RedisSubMap.sound_empty
  patTab := RedisPatternMap.sound_empty
  subHeard := rfl
  patHeard := rfl

theorem Connection.meets_empty : Connection.Meets env {} {} :=
  ⟨Subscriber.sound_empty, by simp [Subscriber.subscriptions], rfl⟩

theorem popContinueTab_done (sound : exec.Sound env) (cm : RedisContinueMsg) :
    (popContinueTab env exec cm).Sound env ∧
      (popContinueTab env exec cm).subscriptions =
        if cm.contTab then exec.subscriptions.done cm.subs else exec.subscriptions := by
  rw [popContinueTab]
  obtain ⟨after, patTab, heard, tells, quiet, done⟩ := popContinueSubs_done cm.subs exec sound.subTab
  split_ifs
  · refine ⟨sound.step (congrArg (· ++ (popContinueSubs env exec cm.subs).2) heard) after ?_ tells ?_,
      done⟩
    · rw [patTab]
      exact sound.patTab
    · rw [quiet, patTab]
      exact .nil
  · exact ⟨sound, rfl⟩

theorem setSession_adds (works : env.Works) (sound : exec.Sound env) (sess : Bytes)
    (compiles : env.Compiles (env.pref ++ (text "_INBOX." ++ sess ++ text ".*"))) :
    (setSession env exec sess).2.Sound env ∧
      (setSession env exec sess).2.subscriptions =
        if sess.length = 0 ∨ env.maxSessionLen ≤ sess.length then exec.subscriptions
        else exec.subscriptions.addPattern env
          (env.pref ++ (text "_INBOX." ++ sess ++ text ".*")) true := by
  rw [setSession]
  split_ifs
  · exact ⟨⟨sound.subTab, sound.patTab, sound.subHeard, sound.patHeard⟩, rfl⟩
  · have renamed : Subscriber.Sound env { exec with session := sess } :=
      ⟨sound.subTab, sound.patTab, sound.subHeard, sound.patHeard⟩
    obtain ⟨after, adds, -⟩ := doPsubscribeCb_adds works renamed (Or.inr rfl)
      (text "_INBOX." ++ sess ++ text ".*") compiles
    exact ⟨after, adds⟩

/-- Each action of a connection is one of its client. -/
theorem act_meets (works : env.Works) (c : Connection) (client : Client) (a : Action)
    (compiles : a.Compiles env) (meets : c.Meets env client) :
    ∃ next, client.Act env a (c.act env a).1 next ∧ (c.act env a).2.Meets env next := by
  cases a with
  | command kind msg =>
      obtain ⟨status, st, runs, sound, answers⟩ := doSub_answers works meets.sound msg compiles
      rw [Connection.act, runs]
      refine ⟨{ client with subs := st.exec.subscriptions }, ⟨_, _, rfl, ?_, rfl⟩, sound, rfl,
        meets.waiting⟩
      rw [← meets.subscriptions]
      exact answers
  | session sess =>
      obtain ⟨sound, adds⟩ := setSession_adds works meets.sound sess compiles
      refine ⟨_, ⟨rfl, rfl⟩, sound, ?_, meets.waiting⟩
      rw [← meets.subscriptions]
      exact adds
  | block subs =>
      obtain ⟨sound, waits, cm⟩ := saveBlocked_waits subs meets.sound { subs := subs }
      refine ⟨_, ⟨rfl, rfl⟩, sound, ?_, ?_⟩
      · rw [← meets.subscriptions]
        exact waits
      · rw [← meets.subscriptions, ← meets.waiting]
        exact congrArg (fun cm => c.waiting ++ [cm]) cm
  | complete idx =>
      rw [Connection.act]
      refine ⟨_, ⟨?_, rfl⟩, ?_⟩
      · cases c.waiting[idx]? <;> rfl
      · rw [← meets.waiting]
        cases c.waiting[idx]? with
        | none => exact meets
        | some cm =>
            obtain ⟨sound, done⟩ := popContinueTab_done meets.sound cm
            refine ⟨sound, ?_, rfl⟩
            rw [← meets.subscriptions]
            exact done

/-- The cyclic redundancy check of the routes. -/
def crc32c (bytes : Bytes) (seed : Nat) : Nat :=
  bytes.foldl (fun crc b => (fun crc => if crc % 2 = 1 then crc / 2 ^^^ 0x82F63B78 else crc / 2)^[8]
    (crc ^^^ b.toNat)) seed

/-- A glob of text and stars. -/
def starGlob (sub : Bytes) : Option PatternCvt :=
  some
    { prefixLen := (sub.takeWhile (· ≠ 42)).length
      out := text "(?s)\\A" ++ (sub.flatMap fun c =>
        if c = 42 then text ".*?" else if c = 46 then [92, 46] else [c]) ++ text "\\z" }

/-- A table of the text of one inbox, the one of the first channel where its hash is of `news`. -/
def newsBase64 : Base64 where
  binToBase64 _ := text "n+ijlgE"
  base64ToBin _ := [159, 232, 163, 150, 1]
  size8 := 12

/-- A namespace with globs that compile. -/
def globEnv : RouteEnv where
  pref := text "_DB."
  kvCrcC := crc32c
  prefixSeed len := len
  convertGlob := starGlob
  pcre2Compile _ := true
  pcre2Match _ _ := true
  subWalk := List.reverse
  patWalk := List.reverse
  base64 := newsBase64
  maxSessionLen := 32
  transform _ := none

theorem globEnv_works : globEnv.Works where
  within sub cvt converts := by
    have glob : starGlob sub = some cvt := converts
    rw [starGlob, Option.some.injEq] at glob
    rw [← glob]
    exact (List.takeWhile_prefix _).length_le
  subWalk tab := List.reverse_perm tab
  patWalk tab := List.reverse_perm tab

/-- A channel and a pattern, and the end of all channels. -/
def globActions : List Action :=
  [.command .subscribe ⟨commandWords ["subscribe", "news"], by simp [commandWords]⟩,
    .command .psubscribe ⟨commandWords ["psubscribe", "log.*"], by simp [commandWords]⟩,
    .command .unsubscribe ⟨commandWords ["unsubscribe"], by simp [commandWords]⟩]

theorem globEnv_compiles (sub : Bytes) : globEnv.Compiles sub := by
  intro cvt _
  rw [RouteEnv.createRe]
  split_ifs with rest compiles
  · exact Option.some_ne_none _
  · exact Option.some_ne_none _
  · exact absurd rfl compiles

theorem globActions_compile : ∀ a ∈ globActions, a.Compiles globEnv := by
  intro a member
  simp only [globActions, List.mem_cons, List.not_mem_nil, or_false] at member
  rcases member with rfl | rfl | rfl <;> exact fun _ sub _ => globEnv_compiles _

/-- The tables are sound after every run. -/
theorem sound_run (works : env.Works) (actions : List Action)
    (compiles : ∀ a ∈ actions, a.Compiles env) :
    (Machine.run (Connection.act env) {} actions).2.exec.Sound env := by
  obtain ⟨client, -, meets⟩ := Machine.refines
    (fun c client a good meets => act_meets works c client a good meets) compiles
    Connection.meets_empty
  exact meets.sound

/-- What the router heard of subjects, and of patterns. -/
def subNews (exec : Subscriber) : List (Notice Nat) := exec.heard.filterMap Notify.ofSub

def patNews (exec : Subscriber) : List (Notice Nat) := exec.heard.filterMap Notify.ofPat

theorem remSubs_ofSub (routes : List RedisSubRoute) :
    (remSubs routes).filterMap Notify.ofSub = leaveAll (routes.map (·.hash)) := by
  induction routes with
  | nil => rfl
  | cons rt left ih =>
      have shared : left.any (·.hash = rt.hash) = decide (rt.hash ∈ left.map (·.hash)) := by
        rw [Bool.eq_iff_iff]
        simp
      rw [remSubs, List.map_cons, leaveAll, ← ih, ← shared]
      rfl

theorem remSubs_ofPat (routes : List RedisSubRoute) :
    (remSubs routes).filterMap Notify.ofPat = [] := by
  induction routes with
  | nil => rfl
  | cons rt left ih => exact ih

theorem remPats_ofSub (passed : List Nat) (pats : List (Nat × RedisWildMatch)) :
    (remPats env passed pats).filterMap Notify.ofSub = [] := by
  induction pats generalizing passed with
  | nil => rfl
  | cons pat left ih =>
      rw [remPats]
      cases env.convertGlob pat.2.value with
      | none => exact ih _
      | some cvt => exact ih _

/-- The patterns of a table convert, so that none is passed over. -/
theorem remPats_ofPat (pats : List (Nat × RedisWildMatch))
    (convert : ∀ pat ∈ pats, env.convertGlob pat.2.value ≠ none) :
    (remPats env [] pats).filterMap Notify.ofPat = leaveAll (pats.map Prod.fst) := by
  induction pats with
  | nil => rfl
  | cons pat left ih =>
      obtain ⟨cvt, converts⟩ := Option.ne_none_iff_exists'.mp (convert pat List.mem_cons_self)
      have shared : decide (pat.1 ∈ ([] : List Nat) ∨ left.any (·.1 = pat.1) = true) =
          decide (pat.1 ∈ left.map Prod.fst) := by
        rw [Bool.eq_iff_iff]
        simp
      rw [remPats, converts, List.map_cons, leaveAll,
        ← ih fun other member => convert other (List.mem_cons_of_mem _ member), ← shared]
      rfl

/-- The end of a connection is told entry by entry. -/
theorem release_tells (works : env.Works) (sound : exec.Sound env) :
    TellsAll 0 (subNews (release env exec)) 0 ∧ TellsAll 0 (patNews (release env exec)) 0 := by
  let pats := (env.patWalk exec.patTab.tab).flatMap fun rt => rt.list.map fun m => (rt.hash, m)
  have heard : (release env exec).heard =
      exec.heard ++ remSubs (env.subWalk exec.subTab.tab) ++ remPats env [] pats := rfl
  have single : ∀ rt ∈ env.patWalk exec.patTab.tab, ∃ w, rt.Holds env w := fun rt walked =>
    sound.patTab.single rt ((works.patWalk _).mem_iff.mp walked)
  constructor
  · rw [subNews, heard, List.filterMap_append, List.filterMap_append, remSubs_ofSub, remPats_ofSub,
      List.append_nil]
    refine sound.subHeard.append ?_
    rw [← Multiset.coe_eq_coe.mpr ((works.subWalk exec.subTab.tab).map (·.hash))]
    exact tellsAll_leaveAll _
  · have convert : ∀ pat ∈ pats, env.convertGlob pat.2.value ≠ none := by
      intro pat member
      obtain ⟨rt, walked, listed⟩ := List.mem_flatMap.mp member
      obtain ⟨m, inside, rfl⟩ := List.mem_map.mp listed
      obtain ⟨w, holds⟩ := single rt walked
      rw [holds.list, List.mem_singleton] at inside
      have literal := holds.literal
      rw [RouteEnv.literal, Option.map_eq_some_iff] at literal
      obtain ⟨cvt, converts, -⟩ := literal
      rw [inside, converts]
      exact Option.some_ne_none cvt
    have hashes : pats.map Prod.fst = (env.patWalk exec.patTab.tab).map (·.hash) := by
      rw [List.map_flatMap, List.map_eq_flatMap]
      refine List.flatMap_congr fun rt walked => ?_
      obtain ⟨w, holds⟩ := single rt walked
      rw [holds.list]
      rfl
    rw [patNews, heard, List.filterMap_append, List.filterMap_append, remSubs_ofPat,
      List.append_nil, remPats_ofPat pats convert, hashes]
    refine sound.patHeard.append ?_
    rw [← Multiset.coe_eq_coe.mpr ((works.patWalk exec.patTab.tab).map (·.hash))]
    exact tellsAll_leaveAll _

/-- The router tells subjects and patterns apart by hashes only. It knows those of the tables. -/
theorem knows_tables (sound : exec.Sound env) (h : Nat) :
    (h ∈ (subNews exec).foldl follow ∅ ↔
      ∃ sub ∈ exec.subscriptions.channels ∪ exec.subscriptions.blocked, env.kvCrcC sub 0 = h) ∧
    (h ∈ (patNews exec).foldl follow ∅ ↔
      ∃ p ∈ exec.subscriptions.patterns, ∃ lit, env.literal p.1 = some lit ∧
        env.kvCrcC lit (env.prefixSeed lit.length) = h) := by
  constructor
  · rw [subNews, follow_of_tellsAll sound.subHeard (fun h => by simp) h, Multiset.mem_coe,
      List.mem_map]
    constructor
    · rintro ⟨rt, member, rfl⟩
      have value := mem_values.mp (List.mem_map_of_mem (f := (·.value)) member)
      exact ⟨rt.value, Finset.mem_union.mpr value, (sound.subTab.hashed rt member).symm⟩
    · rintro ⟨sub, member, rfl⟩
      obtain ⟨rt, inside, rfl⟩ := List.mem_map.mp (mem_values.mpr (Finset.mem_union.mp member))
      exact ⟨rt, inside, sound.subTab.hashed rt inside⟩
  · rw [patNews, follow_of_tellsAll sound.patHeard (fun h => by simp) h, Multiset.mem_coe,
      List.mem_map]
    constructor
    · rintro ⟨rt, member, rfl⟩
      obtain ⟨p, inside, literal⟩ :=
        sound.mem_literals.mp (List.mem_map_of_mem (f := (·.value)) member)
      exact ⟨p, inside, rt.value, literal, (sound.patTab.hashed rt member).symm⟩
    · rintro ⟨p, member, lit, literal, rfl⟩
      obtain ⟨rt, inside, rfl⟩ := List.mem_map.mp (sound.mem_literals.mpr ⟨p, member, literal⟩)
      exact ⟨rt, inside, sound.patTab.hashed rt inside⟩

/-- Over every run the router knows the hashes of the subjects and of the literal texts that a
connection listens to, whatever hashes collide. At the end it has heard of all that they are
gone. -/
theorem router_knows_subscriptions (works : env.Works) (actions : List Action)
    (compiles : ∀ a ∈ actions, a.Compiles env) (exec : Subscriber)
    (ends : (Machine.run (Connection.act env) {} actions).2.exec = exec) (h : Nat) :
    (h ∈ (subNews exec).foldl follow ∅ ↔
      ∃ sub ∈ exec.subscriptions.channels ∪ exec.subscriptions.blocked, env.kvCrcC sub 0 = h) ∧
    (h ∈ (patNews exec).foldl follow ∅ ↔
      ∃ p ∈ exec.subscriptions.patterns, ∃ lit, env.literal p.1 = some lit ∧
        env.kvCrcC lit (env.prefixSeed lit.length) = h) ∧
    TellsAll 0 (subNews (release env exec)) 0 ∧ TellsAll 0 (patNews (release env exec)) 0 ∧
    h ∉ (subNews (release env exec)).foldl follow ∅ ∧
    h ∉ (patNews (release env exec)).foldl follow ∅ := by
  have sound : exec.Sound env := ends ▸ sound_run works actions compiles
  obtain ⟨subs, pats⟩ := knows_tables sound h
  obtain ⟨subsEnd, patsEnd⟩ := release_tells works sound
  have forgotten : ∀ news : List (Notice Nat), TellsAll 0 news 0 → h ∉ news.foldl follow ∅ := by
    intro news tells
    rw [follow_of_tellsAll tells (fun h => by simp) h]
    exact Multiset.notMem_zero h
  exact ⟨subs, pats, subsEnd, patsEnd, forgotten _ subsEnd, forgotten _ patsEnd⟩

theorem router_knows_subscriptions_glob :
    7 ∉ (subNews (release globEnv
      (Machine.run (Connection.act globEnv) {} globActions).2.exec)).foldl follow ∅ :=
  (router_knows_subscriptions globEnv_works globActions globActions_compile _ rfl 7).2.2.2.2.1

end System

end Raids.Pubsub

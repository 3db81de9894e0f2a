import Raids.Proof.Pubsub.SubscriptionRun

namespace Raids.Pubsub
open Announcement

/-- A pattern matches a subject that starts with its literal text, where its expression does. -/
def RouteEnv.hits (env : RouteEnv) (pattern subject : Bytes) : Bool :=
  match env.convertGlob pattern with
  | none => false
  | some cvt =>
      (pattern.take cvt.prefixLen).isPrefixOf subject &&
        (env.createRe pattern cvt).any fun re => re.all fun re => env.pcre2Match re subject

/-- The message that is written for a channel, or for a pattern. -/
def RoutedPub.send (env : RouteEnv) (pub : RoutedPub) (pattern : Option Bytes) : Delivery :=
  .message (pubMessage env.pref.length pub.toEvPublish
    (checkTransform env.transform pub.toEvPublish) pattern)

/-- What a publication is for a connection: a message for the channel, a blocked command that goes
on, and a message for each pattern that matches. -/
def Subscriptions.hears (env : RouteEnv) (t : Subscriptions) (pub : RoutedPub) :
    Multiset Delivery :=
  (if pub.subject ∈ t.channels then {pub.send env none} else 0) +
    (if pub.subject ∈ t.blocked then {.continued pub.subject} else 0) +
    (t.patterns.filter fun p => env.hits p.1 pub.subject).val.map fun p => pub.send env (some p.1)

/-- What the router promises: the hash of a subject that the connection listens to comes once, each
other hash is the one of a text in front of the subject, all of different lengths, and the ones of
the literal texts of the patterns are there and are not the one of the subject. -/
structure RoutedPub.Routed (env : RouteEnv) (t : Subscriptions) (pub : RoutedPub) : Prop where
  subject : pub.subjHash = env.kvCrcC pub.subject 0
  once : (pub.hash.map Prod.fst).count pub.subjHash ≤ 1
  own : pub.subject ∈ t.channels ∪ t.blocked → pub.subjHash ∈ pub.hash.map Prod.fst
  texts : ∀ e ∈ pub.hash, e.1 ≠ pub.subjHash → e.2 ≤ pub.subject.length ∧
    e.1 = env.kvCrcC (pub.subject.take e.2) (env.prefixSeed e.2)
  lengths : ((pub.hash.filter (·.1 ≠ pub.subjHash)).map Prod.snd).Nodup
  patterns : ∀ p ∈ t.patterns, ∀ lit, env.literal p.1 = some lit → lit <+: pub.subject →
    ∃ e ∈ pub.hash, e.1 ≠ pub.subjHash ∧ e.2 = lit.length

section Delivery

variable {env : RouteEnv} {exec : Subscriber} {pub : RoutedPub}

/-- What a listed pattern gets. -/
def patternGets (env : RouteEnv) (exec : Subscriber) (pub : RoutedPub) (rt : RedisPatternRoute) :
    List Delivery :=
  (rt.list.filter (·.hits env pub.subject)).flatMap fun m =>
    match m.callback with
    | none =>
        [.message (pubMessage env.pref.length pub.toEvPublish
          (checkTransform env.transform pub.toEvPublish) (some m.value))]
    | some .onRedisInboxMsg => onInboxReply env exec pub
    | some (.closure id) => [pub.event env id m.value]

theorem pubRoute_eq (pub : RoutedPub) (sound : exec.Sound env)
    (hashed : pub.subjHash = env.kvCrcC pub.subject 0) :
    (pubRoute env exec pub : Multiset Delivery) =
      (if pub.subject ∈ exec.subscriptions.channels then {pub.send env none} else 0) +
        (if pub.subject ∈ exec.subscriptions.blocked then {.continued pub.subject} else 0) := by
  rw [pubRoute, hashed]
  cases found : exec.subTab.find (env.kvCrcC pub.subject 0) pub.subject with
  | none =>
      have absent := (sound.subTab.find_none _).mp found
      rw [mem_values, not_or] at absent
      rw [if_neg absent.1, if_neg absent.2]
      rfl
  | some rt =>
      obtain ⟨member, same⟩ := RedisSubMap.find_some found
      by_cases route : rt.isRoute
      · have channel : pub.subject ∈ exec.subscriptions.channels :=
          mem_channels.mpr ⟨rt, member, route, same⟩
        simp only [if_pos route, sound.subTab.written rt member, if_pos channel,
          if_neg (sound.disjoint channel)]
        rfl
      · have continues : rt.isContinue := by simp [rt.isContinue_eq, route]
        have waits : pub.subject ∈ exec.subscriptions.blocked :=
          mem_blocked.mpr ⟨rt, member, continues, same⟩
        simp only [if_neg route, if_neg fun channel => sound.disjoint channel waits, if_pos waits,
          same, zero_add]
        rfl

/-- The patterns of a text are the ones of the entry with that text. -/
theorem pubPattern_eq (sound : exec.Sound env) {h len : Nat} (within : len ≤ pub.subject.length)
    (hashed : h = env.kvCrcC (pub.subject.take len) (env.prefixSeed len)) :
    pubPattern env exec pub h len =
      (exec.patTab.tab.filter (·.value = pub.subject.take len)).flatMap
        (patternGets env exec pub) := by
  have length : (pub.subject.take len).length = len := List.length_take_of_le within
  have only := filter_key_eq (k := pub.subject.take len)
    (f := fun lit => env.kvCrcC lit (env.prefixSeed lit.length)) sound.patTab.unique
    sound.patTab.hashed
  simp only [length, ← hashed] at only
  have find : exec.patTab.find h (pub.subject.take len) =
      exec.patTab.tab.find? (entryIs (·.value) (·.hash) h (pub.subject.take len)) := rfl
  rw [pubPattern, only, find]
  cases exec.patTab.tab.find? (entryIs (·.value) (·.hash) h (pub.subject.take len)) with
  | none => rfl
  | some rt => exact (List.append_nil _).symm

theorem flatMap_filter {α β : Type} (l : List α) (p : α → Bool) (f : α → List β) :
    (l.filter p).flatMap f = l.flatMap fun a => if p a then f a else [] := by
  induction l with
  | nil => rfl
  | cons a l ih =>
      rw [List.filter_cons, List.flatMap_cons, ← ih]
      split_ifs <;> rfl

/-- The entries of different texts in front of a subject are different ones. -/
theorem perm_texts (sound : exec.Sound env) {lens : List Nat} {subject : Bytes}
    (different : lens.Nodup) (within : ∀ len ∈ lens, len ≤ subject.length) :
    (lens.flatMap fun len => exec.patTab.tab.filter (·.value = subject.take len)).Perm
      (exec.patTab.tab.filter fun rt => lens.any fun len => rt.value = subject.take len) := by
  have routes : exec.patTab.tab.Nodup := List.Nodup.of_map _ sound.patTab.unique
  have each : (lens.flatMap fun len =>
      exec.patTab.tab.filter (·.value = subject.take len)).Nodup := by
    rw [List.nodup_flatMap]
    refine ⟨fun len _ => routes.filter _, different.imp_of_mem ?_⟩
    intro first second member inside differ rt one other
    have firstText : rt.value = subject.take first := by simpa using (List.mem_filter.mp one).2
    have secondText : rt.value = subject.take second := by simpa using (List.mem_filter.mp other).2
    have same := congrArg List.length (firstText.symm.trans secondText)
    rw [List.length_take_of_le (within first member),
      List.length_take_of_le (within second inside)] at same
    exact differ same
  rw [List.perm_ext_iff_of_nodup each (routes.filter _)]
  intro rt
  simp only [List.mem_flatMap, List.mem_filter, List.any_eq_true, decide_eq_true_eq]
  constructor
  · rintro ⟨len, listed, member, text⟩
    exact ⟨member, len, listed, text⟩
  · rintro ⟨member, len, listed, text⟩
    exact ⟨len, listed, member, text⟩

/-- What a pattern is for. -/
theorem patternGets_eq {rt : RedisPatternRoute} {w : RedisWildMatch} (holds : rt.Holds env w)
    (noInbox : w.mark.2 = false) :
    patternGets env exec pub rt =
      if w.hits env pub.subject then [pub.send env (some w.value)] else [] := by
  have stream : w.callback = none := by
    rcases holds.callback with none | inbox
    · exact none
    · exact absurd noInbox (by simp [RedisWildMatch.mark, inbox])
  rw [patternGets, holds.list]
  by_cases hits : w.hits env pub.subject
  · have only : [w].filter (·.hits env pub.subject) = [w] := by simp [hits]
    rw [only, if_pos hits, List.flatMap_singleton, stream]
    rfl
  · have nothing : [w].filter (·.hits env pub.subject) = [] := by simp [hits]
    rw [nothing, if_neg hits]
    rfl

theorem hits_iff {rt : RedisPatternRoute} {w : RedisWildMatch} (holds : rt.Holds env w)
    (subject : Bytes) :
    env.hits w.value subject = (rt.value.isPrefixOf subject && w.hits env subject) := by
  have literal := holds.literal
  have created := holds.created
  rw [RouteEnv.literal, Option.map_eq_some_iff] at literal
  obtain ⟨cvt, converts, text⟩ := literal
  rw [converts, Option.bind_some] at created
  simp only [RouteEnv.hits, converts, text, created, Option.any_some]
  rfl

/-- A pattern that matches is one of the routed texts. -/
theorem RoutedPub.Routed.text_of_hits (sound : exec.Sound env) (routed : pub.Routed env exec.subscriptions)
    {rt : RedisPatternRoute} (member : rt ∈ exec.patTab.tab) {w : RedisWildMatch}
    (holds : rt.Holds env w) (hits : env.hits w.value pub.subject) :
    ∃ len ∈ (pub.hash.filter (·.1 ≠ pub.subjHash)).map Prod.snd,
      rt.value = pub.subject.take len := by
  rw [hits_iff holds, Bool.and_eq_true, List.isPrefixOf_iff_prefix] at hits
  have listed := sound.mem_patterns_iff.mpr ⟨rt, member, w, holds, rfl⟩
  obtain ⟨e, inside, other, length⟩ := routed.patterns w.mark listed rt.value holds.literal hits.1
  refine ⟨e.2, List.mem_map.mpr ⟨e, List.mem_filter.mpr ⟨inside, by simpa using other⟩, rfl⟩, ?_⟩
  rw [length]
  exact List.prefix_iff_eq_take.mp hits.1

/-- The routed texts give each pattern that matches its message, and no other. -/
theorem patterns_get (sound : exec.Sound env) (routed : pub.Routed env exec.subscriptions)
    (noInbox : ∀ p ∈ exec.subscriptions.patterns, p.2 = false) :
    (((pub.hash.filter (·.1 ≠ pub.subjHash)).flatMap fun e => pubPattern env exec pub e.1 e.2 :
        List Delivery) : Multiset Delivery) =
      (exec.subscriptions.patterns.filter fun p => env.hits p.1 pub.subject).val.map
        fun p => pub.send env (some p.1) := by
  let others := pub.hash.filter (·.1 ≠ pub.subjHash)
  let lens := others.map Prod.snd
  have texts : ∀ e ∈ others, e.2 ≤ pub.subject.length ∧
      e.1 = env.kvCrcC (pub.subject.take e.2) (env.prefixSeed e.2) := by
    intro e member
    obtain ⟨inside, other⟩ := List.mem_filter.mp member
    exact routed.texts e inside (by simpa using other)
  have within : ∀ len ∈ lens, len ≤ pub.subject.length := by
    intro len listed
    obtain ⟨e, member, rfl⟩ := List.mem_map.mp listed
    exact (texts e member).1
  have walked : others.flatMap (fun e => pubPattern env exec pub e.1 e.2) =
      (lens.flatMap fun len => exec.patTab.tab.filter (·.value = pub.subject.take len)).flatMap
        (patternGets env exec pub) := by
    rw [List.flatMap_assoc, List.flatMap_map]
    refine List.flatMap_congr fun e member => ?_
    exact pubPattern_eq sound (texts e member).1 (texts e member).2
  have each : ∀ rt ∈ exec.patTab.tab,
      (if (lens.any fun len => rt.value = pub.subject.take len) then patternGets env exec pub rt
        else []) =
      ((rt.list.map RedisWildMatch.mark).filter fun p => env.hits p.1 pub.subject).map
        fun p => pub.send env (some p.1) := by
    intro rt member
    obtain ⟨w, holds⟩ := sound.patTab.single rt member
    have plain := noInbox w.mark (sound.mem_patterns_iff.mpr ⟨rt, member, w, holds, rfl⟩)
    rw [patternGets_eq holds plain, holds.list]
    by_cases hits : env.hits w.value pub.subject
    · obtain ⟨len, listed, text⟩ := routed.text_of_hits sound member holds hits
      have routedText : (lens.any fun len => rt.value = pub.subject.take len) = true :=
        List.any_eq_true.mpr ⟨len, listed, by simpa using text⟩
      have found := hits
      rw [hits_iff holds, Bool.and_eq_true] at found
      have kept : [w.mark].filter (fun p => env.hits p.1 pub.subject) = [w.mark] := by
        simp [RedisWildMatch.mark, hits]
      rw [if_pos routedText, if_pos found.2, List.map_singleton, kept]
      rfl
    · have gone : [w.mark].filter (fun p => env.hits p.1 pub.subject) = [] := by
        simp [RedisWildMatch.mark, hits]
      rw [List.map_singleton, gone, List.map_nil]
      split_ifs with routedText found
      · obtain ⟨len, -, text⟩ := List.any_eq_true.mp routedText
        have front : rt.value <+: pub.subject := by
          rw [of_decide_eq_true text]
          exact List.take_prefix len _
        rw [hits_iff holds, List.isPrefixOf_iff_prefix.mpr front, Bool.true_and] at hits
        exact absurd found hits
      · rfl
      · rfl
  have perm : (others.flatMap fun e => pubPattern env exec pub e.1 e.2).Perm
      (exec.patTab.tab.flatMap fun rt =>
        ((rt.list.map RedisWildMatch.mark).filter fun p => env.hits p.1 pub.subject).map
          fun p => pub.send env (some p.1)) := by
    rw [walked, ← List.flatMap_congr each, ← flatMap_filter]
    exact (perm_texts sound routed.lengths within).flatMap_right _
  rw [Multiset.coe_eq_coe.mpr perm, Finset.filter_val, Subscriber.subscriptions,
    List.toFinset_val, sound.patterns_nodup.dedup, Multiset.filter_coe, Multiset.map_coe,
    List.filter_flatMap, List.map_flatMap]
  simp only [Bool.decide_eq_true]

/-- The hash of the subject gives what its entry gets. -/
theorem own_gets (sound : exec.Sound env) (routed : pub.Routed env exec.subscriptions) :
    (((pub.hash.filter (·.1 = pub.subjHash)).flatMap fun _ => pubRoute env exec pub :
        List Delivery) : Multiset Delivery) =
      (if pub.subject ∈ exec.subscriptions.channels then {pub.send env none} else 0) +
        (if pub.subject ∈ exec.subscriptions.blocked then {.continued pub.subject} else 0) := by
  have few : (pub.hash.filter (·.1 = pub.subjHash)).length ≤ 1 := by
    have counted := routed.once
    rw [List.count, List.countP_map, List.countP_eq_length_filter] at counted
    simpa [Function.comp_def, beq_eq_decide] using counted
  rw [← pubRoute_eq pub sound routed.subject]
  cases listed : pub.hash.filter (·.1 = pub.subjHash) with
  | nil =>
      rw [List.flatMap_nil, pubRoute_eq pub sound routed.subject]
      have unknown : pub.subject ∉ exec.subscriptions.channels ∪ exec.subscriptions.blocked := by
        intro known
        obtain ⟨e, member, same⟩ := List.mem_map.mp (routed.own known)
        have inside : e ∈ pub.hash.filter (·.1 = pub.subjHash) :=
          List.mem_filter.mpr ⟨member, decide_eq_true same⟩
        rw [listed] at inside
        exact List.not_mem_nil inside
      rw [Finset.mem_union, not_or] at unknown
      rw [if_neg unknown.1, if_neg unknown.2]
      rfl
  | cons e rest =>
      rw [listed, List.length_cons] at few
      have last : rest = [] := List.length_eq_zero_iff.mp (by omega)
      rw [last, List.flatMap_singleton]

/-- A publication reaches a connection for its channel and for each pattern that matches, once each,
and for nothing else, after every run. -/
theorem delivery_exact (works : env.Works) (actions : List Action)
    (compiles : ∀ a ∈ actions, a.Compiles env) (exec : Subscriber)
    (ends : (Machine.run (Connection.act env) {} actions).2.exec = exec) (pub : RoutedPub)
    (routed : pub.Routed env exec.subscriptions)
    (noInbox : ∀ p ∈ exec.subscriptions.patterns, p.2 = false) :
    (doPub env exec pub : Multiset Delivery) =
      if pub.fromSelf then 0 else exec.subscriptions.hears env pub := by
  have sound : exec.Sound env := ends ▸ sound_run works actions compiles
  rw [doPub]
  split_ifs with self
  · rfl
  · have split : (pub.hash.filter (·.1 = pub.subjHash) ++
        pub.hash.filter (·.1 ≠ pub.subjHash)).Perm pub.hash := by
      have halves := List.filter_append_perm (fun e => decide (e.1 = pub.subjHash)) pub.hash
      simpa using halves
    rw [← Multiset.coe_eq_coe.mpr (split.flatMap_right _), List.flatMap_append, ← Multiset.coe_add,
      Subscriptions.hears, ← own_gets sound routed, ← patterns_get sound routed noInbox]
    congr 2
    · refine List.flatMap_congr fun e member => ?_
      rw [if_pos (of_decide_eq_true (List.mem_filter.mp member).2).symm]
    · refine List.flatMap_congr fun e member => ?_
      have other := of_decide_eq_true (List.mem_filter.mp member).2
      rw [if_neg fun same => other same.symm]

theorem newsWords_length : (commandWords ["subscribe", "news"]).length < 2 ^ 31 := by decide

/-- A client of a session that listens to one channel. -/
def newsActions : List Action :=
  [.session (text "s"), .command .subscribe ⟨commandWords ["subscribe", "news"], newsWords_length⟩]

theorem newsActions_compile : ∀ a ∈ newsActions, a.Compiles globEnv := by
  intro a member
  simp only [newsActions, List.mem_cons, List.not_mem_nil, or_false] at member
  rcases member with rfl | rfl
  · exact globEnv_compiles _
  · exact fun is => absurd is (by decide)

/-- A client without a session that listens to one channel. -/
def channelActions : List Action := newsActions.tail

theorem channelActions_compile : ∀ a ∈ channelActions, a.Compiles globEnv :=
  fun a member => newsActions_compile a (List.mem_of_mem_tail member)

/-- A publication to the channel, as the router hands it over. -/
def newsPub : RoutedPub where
  subject := text "_DB.news"
  msg := text "hi"
  msgEnc := .mdString
  subjHash := crc32c (text "_DB.news") 0
  hash := [(crc32c (text "_DB.news") 0, 8)]

theorem delivery_exact_news :
    (doPub globEnv (Machine.run (Connection.act globEnv) {} channelActions).2.exec newsPub :
        Multiset Delivery) =
      if newsPub.fromSelf then 0
      else (Machine.run (Connection.act globEnv) {} channelActions).2.exec.subscriptions.hears globEnv
        newsPub := by
  have subs : (Machine.run (Connection.act globEnv) {} channelActions).2.exec.subscriptions =
      { channels := {text "_DB.news"} } := by decide
  have routed : newsPub.Routed globEnv
      (Machine.run (Connection.act globEnv) {} channelActions).2.exec.subscriptions := by
    rw [subs]
    exact ⟨rfl, by simp [newsPub], fun _ => by simp [newsPub], by simp [newsPub],
      by simp [newsPub], by simp⟩
  exact delivery_exact globEnv_works channelActions channelActions_compile _ rfl newsPub routed
    (by rw [subs]; simp)

/-- The entry of the channel. -/
def newsRoute : RedisSubRoute :=
  { hash := 2527324319, value := text "_DB.news", state := .routeData, ibxId := 1 }

/-- A publication to the inbox of the channel. -/
def newsInbox : RoutedPub where
  subject := text "_DB._INBOX.s.n+ijlgE"
  msg := text "hi"
  msgEnc := .mdString
  subjHash := 0
  hash := []

end Delivery

end Raids.Pubsub

import MioBroker.Decoders
import MioBroker.Errands
import MioBroker.Sessions
import MioBroker.Runs

/-!
# What queues and windows hold

Every reliable packet of a queue is a forwarded PUBLISH or a PUBREL, every entry of a window is
the PUBLISH forwarded under its packet id, and no QoS is wider than two bits.
-/
namespace MioBroker

open Rust

theorem and_three_le (x : UInt8) : x &&& 0x03 ≤ 3 := by
  have three : (3 : UInt8).toNat = 3 := rfl
  rw [UInt8.le_iff_toNat_le, UInt8.toNat_and, three]
  exact Nat.and_le_right

/-! ### QoS values that come in -/

theorem parseConnect_willQos {body : Bytes} {q : ConnectPacket}
    (parse : parseConnect body = .ok (some q)) : q.willQos ≤ 3 := by
  simp only [parseConnect] at parse
  split at parse
  · cases parse
  obtain ⟨plen, -, parse⟩ := Run.bind_ok.mp parse
  split at parse
  · cases parse
  obtain ⟨flags, -, parse⟩ := Run.bind_ok.mp parse
  obtain ⟨keepalive, -, parse⟩ := Run.bind_ok.mp parse
  obtain ⟨clen, -, parse⟩ := Run.bind_ok.mp parse
  split at parse
  · cases parse
  obtain ⟨cid, -, parse⟩ := Run.bind_ok.mp parse
  split at parse
  · split at parse
    · cases parse
    obtain ⟨wlen, -, parse⟩ := Run.bind_ok.mp parse
    split at parse
    · cases parse
    obtain ⟨wtopic, -, parse⟩ := Run.bind_ok.mp parse
    split at parse
    · cases parse
    obtain ⟨mlen, -, parse⟩ := Run.bind_ok.mp parse
    split at parse
    · cases parse
    obtain ⟨wmsg, -, parse⟩ := Run.bind_ok.mp parse
    cases parse
    -- The QoS of the will is two bits of the flags, whatever else they say.
    exact and_three_le _
  · cases parse
    exact (by decide : (0 : UInt8) ≤ 3)

theorem parseSubscribeLoop_qos {body : Bytes} (fuel pos : Nat) (out topics : List (Str × UInt8))
    (before : ∀ e ∈ out, e.2 ≤ 3) (parse : parseSubscribeLoop body fuel pos out = .ok (some topics)) :
    ∀ e ∈ topics, e.2 ≤ 3 := by
  induction fuel generalizing pos out with
  | zero =>
    cases parse
    exact before
  | succ fuel ih =>
    simp only [parseSubscribeLoop] at parse
    split at parse
    · obtain ⟨tlen, -, parse⟩ := Run.bind_ok.mp parse
      split at parse
      · cases parse
      obtain ⟨filter, -, parse⟩ := Run.bind_ok.mp parse
      obtain ⟨byte, -, parse⟩ := Run.bind_ok.mp parse
      refine ih _ _ (fun e member => ?_) parse
      rcases List.mem_append.mp member with old | new
      · exact before e old
      · rw [List.mem_singleton.mp new]
        exact and_three_le _
    · cases parse
      exact before

theorem parseSubscribe_qos {body : Bytes} {pid : UInt16} {topics : List (Str × UInt8)}
    (parse : parseSubscribe body = .ok (some (pid, topics))) : ∀ e ∈ topics, e.2 ≤ 3 := by
  simp only [parseSubscribe] at parse
  split at parse
  · cases parse
  obtain ⟨id, -, parse⟩ := Run.bind_ok.mp parse
  obtain ⟨out, looped, parse⟩ := Run.bind_ok.mp parse
  cases out with
  | none => cases parse
  | some out =>
    cases parse
    exact parseSubscribeLoop_qos _ _ _ _ (by simp) looped

/-! ### The invariant of one connection -/

/-- The packet a change answers with, if there is room in the queue. -/
def Change.answer : Change → Option Bytes
  | .reply pkt => some pkt
  | .connect _ => some buildConnack
  | .publishQos2 pid => some (buildPubrec pid)
  | .pubrec pid => some (buildPubrel pid)
  | .pubrel pid => some (buildPubcomp pid)
  | _ => none

namespace Client

/-- Every entry of the queue has one property, every entry of the window another. -/
structure Stocked (P : Bool × Bytes → Prop) (Q : UInt16 → InFlight → Prop) (c : Client) : Prop where
  queue : ∀ e ∈ c.writeQueue, P e
  window : ∀ pid entry, c.inFlight.get? pid = some entry → Q pid entry

section Stocked

variable {P : Bool × Bytes → Prop} {Q : UInt16 → InFlight → Prop} {c d : Client}

theorem mem_of_filter_eq {queue queue' : List (Bool × Bytes)}
    (same : queue'.filter Prod.fst = queue.filter Prod.fst) {e : Bool × Bytes} (member : e ∈ queue')
    (isReliable : e.1 = true) : e ∈ queue := by
  have filtered : e ∈ queue'.filter Prod.fst := List.mem_filter.mpr ⟨member, isReliable⟩
  rw [same] at filtered
  exact (List.mem_filter.mp filtered).1

theorem mem_reply {pkt : Bytes} {e : Bool × Bytes} (member : e ∈ (c.reply pkt).writeQueue) :
    e ∈ c.writeQueue ∨ e = (false, pkt) := by
  simp only [reply, queueQos0] at member
  split at member
  · exact .inl member
  · exact (List.mem_append.mp member).imp_right List.mem_singleton.mp

theorem Stocked.reply (stocked : c.Stocked P Q) {pkt : Bytes} (fits : P (false, pkt)) :
    (c.reply pkt).Stocked P Q := by
  refine ⟨fun e member => ?_, ?_⟩
  · rcases mem_reply member with old | rfl
    · exact stocked.queue e old
    · exact fits
  · rw [inFlight_reply]
    exact stocked.window

theorem Stocked.queueQos1 (stocked : c.Stocked P Q) {pkt : Bytes} (fits : P (true, pkt)) :
    (c.queueQos1 pkt).1.Stocked P Q := by
  have made : ∀ e ∈ (makeRoom c.writeQueue.length c.writeQueue).1, P e := fun e member =>
    stocked.queue e ((sublist_makeRoom _ _).subset member)
  simp only [Client.queueQos1]
  split
  next queue room =>
    rw [room] at made
    refine ⟨fun e member => ?_, stocked.window⟩
    rcases List.mem_append.mp member with old | new
    · exact made e old
    · rw [List.mem_singleton.mp new]
      exact fits
  next queue room =>
    rw [room] at made
    exact ⟨made, stocked.window⟩

theorem Stocked.offer (stocked : c.Stocked P Q) {now : Instant} {topic : Str} {payload : Bytes}
    {qos : UInt8} {retain : Bool}
    (unreliable : qos = 0 → P (false, buildForward topic.bytes payload 0 none false retain))
    (reliable : qos ≠ 0 → ∀ pid, P (true, buildForward topic.bytes payload qos (some pid) false retain) ∧
      Q pid ⟨buildForward topic.bytes payload qos (some pid) false retain, now, 0, qos == 2, false⟩)
    (done : c.offer now topic payload qos retain = .queued d) : d.Stocked P Q := by
  simp only [Client.offer] at done
  split at done
  next zero =>
    simp only [queueQos0] at done
    split at done
    next e kept =>
      split at kept
      · cases kept
      · cases kept
        cases done
        refine ⟨fun e member => ?_, stocked.window⟩
        rcases List.mem_append.mp member with old | new
        · exact stocked.queue e old
        · rw [List.mem_singleton.mp new]
          exact unreliable zero
    next => cases done
  next positive =>
    split at done
    next c' pid alloc =>
      -- Drawing an id moves a counter and nothing that is stocked.
      have free : c'.Stocked P Q := by
        simp only [allocPid] at alloc
        split at alloc
        · cases alloc
        · have same := congrArg Prod.fst alloc
          subst same
          exact ⟨stocked.queue, stocked.window⟩
      have queued := free.queueQos1 (reliable positive pid).1
      split at done
      next e made =>
        cases done
        rw [made] at queued
        exact ⟨queued.queue, HashMap.forall_insert queued.window (reliable positive pid).2⟩
      next => cases done
    next => cases done

/-- A change answers, sends again, or takes something away; what it changes in a window entry is
neither the packet nor its QoS. -/
theorem Stocked.change (stocked : c.Stocked P Q) (now : Instant) {ch : Change}
    (answers : ∀ pkt, ch.answer = some pkt → P (false, pkt))
    (again : ∀ pid pkt scanned, ch = .retry pid pkt scanned → P (true, pkt))
    (steady : ∀ pid e e', Q pid e → e'.pkt = e.pkt → e'.qos2 = e.qos2 → Q pid e') :
    (ch.apply now c).Stocked P Q := by
  -- Most changes touch neither the queue nor the window.
  have same : ∀ d : Client, d.writeQueue = c.writeQueue → d.inFlight = c.inFlight → d.Stocked P Q :=
    fun d queue window => ⟨queue ▸ stocked.queue, window ▸ stocked.window⟩
  cases ch with
  | reply pkt => exact stocked.reply (answers pkt rfl)
  | connect p =>
    refine Stocked.reply ?_ (answers _ rfl)
    exact ⟨stocked.queue, stocked.window⟩
  | buffer buf => exact same _ rfl rfl
  | alive =>
    simp only [Change.apply, refreshKeepalive]
    split <;> exact same _ rfl rfl
  | publishQos2 pid =>
    refine Stocked.reply ?_ (answers _ rfl)
    split <;> exact same _ rfl rfl
  | acked pid => exact ⟨stocked.queue, HashMap.forall_erase stocked.window pid⟩
  | pubrec pid =>
    simp only [Change.apply, Client.pubrec]
    split
    next entry there =>
      split
      · refine Stocked.reply ?_ (answers _ rfl)
        refine ⟨stocked.queue, HashMap.forall_insert stocked.window ?_⟩
        exact steady pid entry _ (stocked.window pid entry there) rfl rfl
      · exact stocked
    next => exact stocked
  | pubrel pid =>
    refine Stocked.reply ?_ (answers _ rfl)
    exact ⟨stocked.queue, stocked.window⟩
  | disconnect => exact same _ rfl rfl
  | retry pid pkt scanned =>
    -- A retry queues the packet it scanned and then restarts its timer.
    have queued := stocked.queueQos1 (again pid pkt scanned rfl)
    simp only [Change.apply]
    split
    next d made =>
      rw [made] at queued
      simp only [restartTimer]
      split
      next entry there =>
        refine ⟨queued.queue, HashMap.forall_insert queued.window ?_⟩
        exact steady pid entry _ (queued.window pid entry there) rfl rfl
      next => exact queued
    next d made =>
      rw [made] at queued
      exact queued
  | write ws =>
    refine ⟨fun e member => stocked.queue e ((writeLoop_frame ws c).2.subset member), ?_⟩
    rw [Change.apply, inFlight_writeLoop]
    exact stocked.window
  | rearm interest => exact same _ rfl rfl

end Stocked

/-- Queue and window hold what was built for this connection. -/
structure Genuine (c : Client) : Prop where
  queue : ∀ e ∈ c.writeQueue, e.1 = true → ∃ x : Queued, e.2 = x.encode
  window : ∀ pid entry, c.inFlight.get? pid = some entry →
    ∃ f : Forward, f.pid = pid ∧ f.dup = false ∧ entry.qos2 = (f.qos == 2) ∧ entry.pkt = f.encode
  will : c.willQos ≤ 3

theorem genuine_accepted (t : Token) (h₁ h₂ : RandomState UInt16) : (accepted t h₁ h₂).Genuine :=
  ⟨fun _ member => (by cases member), fun _ _ found => (by simp [accepted] at found),
    (by decide : (0 : UInt8) ≤ 3)⟩

theorem Genuine.stocked {c : Client} (genuine : c.Genuine) :
    c.Stocked (fun e => e.1 = true → ∃ x : Queued, e.2 = x.encode) (fun pid entry =>
      ∃ f : Forward, f.pid = pid ∧ f.dup = false ∧ entry.qos2 = (f.qos == 2) ∧ entry.pkt = f.encode) :=
  ⟨genuine.queue, genuine.window⟩

theorem Genuine.offer {c d : Client} (genuine : c.Genuine) {now : Instant} {topic : Str}
    {payload : Bytes} {qos : UInt8} {retain : Bool} (coded : qos ≤ 3)
    (done : c.offer now topic payload qos retain = .queued d) : d.Genuine := by
  have stocked := genuine.stocked.offer (fun _ isReliable => by cases isReliable)
    (fun reliable pid =>
      ⟨fun _ => ⟨.publish ⟨topic, payload, qos, pid, false, retain, reliable, coded⟩, rfl⟩,
      ⟨topic, payload, qos, pid, false, retain, reliable, coded⟩, rfl, rfl, rfl, rfl⟩) done
  refine ⟨stocked.queue, stocked.window, ?_⟩
  rw [(offered_of_offer c d now topic payload qos retain done).frame]
  exact genuine.will

end Client

/-- A CONNECT comes from the parser, a retransmission from a window. -/
def Change.Sound : Change → Prop
  | .connect p => p.willQos ≤ 3
  | .retry _ pkt _ => ∃ x : Queued, pkt = x.encode
  | _ => True

theorem Client.Genuine.change {c : Client} (genuine : c.Genuine) (now : Instant) {ch : Change}
    (sound : ch.Sound) : (ch.apply now c).Genuine := by
  have stocked : (ch.apply now c).Stocked _ _ :=
    genuine.stocked.change now (fun _ _ isReliable => by cases isReliable)
    (fun pid pkt scanned same _ => by subst same; exact sound)
    (fun pid e e' holds pkt qos2 => by rw [pkt, qos2]; exact holds)
  refine ⟨stocked.queue, stocked.window, ?_⟩
  by_cases connects : ∃ p, ch = .connect p
  · obtain ⟨p, rfl⟩ := connects
    rw [Change.apply, applyConnect, reply_frame]
    exact sound
  · rw [Change.willQos now c fun p same => connects ⟨p, same⟩]
    exact genuine.will

/-! ### The invariant of the broker -/

/-- Every connection holds what was built for it, and what was stored comes from there. -/
structure Broker.Genuine (b : Broker) : Prop where
  clients : ∀ t c, b.clients.get? t = some c → c.Genuine
  offline : ∀ cid sess, b.sessions.get? cid = some sess → ∀ m ∈ sess.offline, m.2.2 ≤ 3

/-- QoS values of two bits, genuine retransmissions. -/
def Act.Sound : Act → Prop
  | .change _ ch => ch.Sound
  | .deliver _ _ _ qos _ => qos ≤ 3
  | .publish _ _ qos _ => qos ≤ 3
  | _ => True

theorem Act.Sound.offers {a : Act} (sound : a.Sound) {topic : Str} {payload : Bytes} {qos : UInt8}
    (offered : a.Offers topic payload qos) : qos ≤ 3 := by
  cases a with
  | deliver t topic' payload' qos' retain => exact offered.2.2 ▸ sound
  | publish topic' payload' qos' retain => exact UInt8.le_trans offered.2.2 sound
  | _ => exact offered.elim

theorem qosBits_le (pkt : Bytes) : qosBits pkt ≤ 3 := by
  cases pkt with
  | nil => exact (by decide : (0 : UInt8) ≤ 3)
  | cons first rest =>
    have three : (3 : UInt8).toNat = 3 := rfl
    have mask : (first &&& 0x06).toNat ≤ 6 := by
      rw [UInt8.toNat_and]
      exact Nat.and_le_right
    rw [qosBits, UInt8.le_iff_toNat_le, UInt8.toNat_shiftRight, three, Nat.shiftRight_eq_div_pow]
    exact Nat.div_le_of_le_mul mask

/-- The QoS read back from a queue is in the first byte of the packet. -/
theorem decodeQueued_bits {pkt : Bytes} {m : Str × Bytes × UInt8}
    (done : Broker.decodeQueued pkt = .ok m) : m.2.2 = qosBits pkt := by
  obtain ⟨body, -, done⟩ := Run.bind_ok.mp done
  obtain ⟨tlen, -, done⟩ := Run.bind_ok.mp done
  obtain ⟨topic, -, done⟩ := Run.bind_ok.mp done
  obtain ⟨first, head, done⟩ := Run.bind_ok.mp done
  obtain ⟨payload, -, done⟩ := Run.bind_ok.mp done
  cases done
  cases pkt with
  | nil => cases head
  | cons byte rest =>
    cases head
    rfl

theorem mapM_decode_bits {queue : List (Bool × Bytes)} {offline : List (Str × Bytes × UInt8)}
    (done : (queue.mapM fun e => Broker.decodeQueued e.2) = .ok offline) {m : Str × Bytes × UInt8}
    (member : m ∈ offline) : ∃ e ∈ queue, m.2.2 = qosBits e.2 := by
  induction queue generalizing offline with
  | nil =>
    cases done
    cases member
  | cons e queue ih =>
    rw [List.mapM_cons] at done
    obtain ⟨first, read, done⟩ := Run.bind_ok.mp done
    obtain ⟨rest, decoded, done⟩ := Run.bind_ok.mp done
    cases done
    rcases List.mem_cons.mp member with rfl | later
    · exact ⟨e, List.mem_cons_self, decodeQueued_bits read⟩
    · obtain ⟨f, inside, same⟩ := ih decoded later
      exact ⟨f, List.mem_cons_of_mem _ inside, same⟩

theorem Broker.Genuine.act {b b' : Broker} (genuine : b.Genuine) (healthy : b.Healthy) {a : Act}
    (sound : a.Sound) (done : a.run b = .ok b') : b'.Genuine := by
  constructor
  · refine Act.each_client Client.Genuine healthy done Client.genuine_accepted ?_ ?_ genuine.clients
    · rintro t ch c rfl kept
      exact kept.change _ sound
    · exact fun c d topic payload qos retain offered kept queued =>
        kept.offer (sound.offers offered) queued
  · intro cid sess stored m member
    -- A session is an old one, one that a publish has added to, or a departure.
    rcases Act.session_origin healthy done stored with
      old | ⟨topic, payload, qos, retain, before, rfl, there, rfl⟩ |
        ⟨t, c, offline, -, -, -, rfl, decoded, rfl⟩
    · exact genuine.offline cid sess old m member
    · simp only [SessionState.enqueue] at member
      split at member
      · rw [SessionState.push, addCapped] at member
        split at member
        · rcases List.mem_append.mp member with old | new
          · exact genuine.offline cid before there m old
          · rw [List.mem_singleton.mp new]
            exact UInt8.le_trans Std.min_le_left sound
        · exact genuine.offline cid before there m member
      · exact genuine.offline cid before there m member
    · rw [departure, foldl_addCapped] at member
      rcases List.mem_append.mp member with old | new
      · cases there : b.sessions.get? c.clientId with
        | none => simp [there] at old
        | some before =>
          rw [there] at old
          exact genuine.offline _ before there m old
      · obtain ⟨e, -, same⟩ := mapM_decode_bits decoded (List.mem_of_mem_take new)
        rw [same]
        exact qosBits_le _

theorem Broker.genuine_startup {b : Broker} (start : b.Startup) : b.Genuine := by
  constructor
  · intro t c found
    cases (start.unconnected t).symm.trans found
  · obtain ⟨h, now, file, rfl⟩ := start
    intro cid sess stored m member
    simp only [loadState] at stored
    split at stored
    next data content =>
      split at stored
      next retained sessions read =>
        have graded := (deserializeState_graded read).2 cid sess stored
        exact UInt8.le_trans (graded.offline m member) (by decide)
      next => simp [Broker.new] at stored
    next => simp [Broker.new] at stored

/-! ### Operations and steps -/

/-- The event loop publishes counters with QoS 0, and retransmits what it found in a window. -/
def Op.Sound : Op → Prop
  | .publish _ _ qos _ => qos = 0
  | .retry _ _ pkt _ => ∃ x : Queued, pkt = x.encode
  | _ => True

section Sound

variable {b : Broker} {op : Op}

theorem Broker.Genuine.willCall_qos (genuine : b.Genuine) {t : Token} {call : PublishCall}
    (made : b.willCall t = some call) : call.qos ≤ 3 := by
  obtain ⟨c, w, found, -, set, rfl⟩ := willCall_some made
  simp only [Client.will] at set
  split at set
  · cases set
    exact (genuine.clients t c found).will
  · cases set

theorem Broker.Genuine.publishCall_qos (genuine : b.Genuine) (sound : op.Sound) {call : PublishCall}
    (made : op.publishCall b = some call) : call.qos ≤ 3 := by
  cases op with
  | packet t p =>
    obtain ⟨-, -, q, d, parse, -, rfl⟩ := packetCall_some made
    exact (parsePublish_fields parse).1 ▸ and_three_le _
  | remove t => exact genuine.willCall_qos made
  | flush t ws =>
    obtain ⟨c, found, -, called⟩ := Op.publishCall_flush made
    -- the record has changed by the write, its will has not
    have written : ({ b with clients := b.clients.insert t (c.writeLoop ws).1 } : Broker).Genuine := by
      refine ⟨fun k d there => ?_, genuine.offline⟩
      rw [HashMap.get?_insert] at there
      split at there
      · cases there
        exact (genuine.clients t c found).change b.now (show Change.Sound (.write ws) from trivial)
      · exact genuine.clients k d there
    exact written.willCall_qos called
  | publish topic payload qos retain =>
    cases made
    rw [show qos = 0 from sound]
    exact (by decide : (0 : UInt8) ≤ 3)
  | _ => cases made

theorem Broker.Genuine.messages_qos (genuine : b.Genuine) {m : Str × Bytes × UInt8}
    (member : m ∈ op.messages b) : m.2.2 ≤ 3 := by
  cases op with
  | packet t p =>
    rcases packetMessages_cases member with ⟨q, sess, -, -, -, stored, flushed⟩ |
      ⟨pid, topics, -, parse, hits⟩
    · obtain ⟨m', there, rfl⟩ := List.mem_map.mp flushed
      -- A flushed message has the stored QoS or less, by the first filter that matches.
      have low := genuine.offline q.cid sess stored m' there
      split
      · exact UInt8.le_trans Std.min_le_left low
      · exact low
    · obtain ⟨e, there, hit⟩ := List.mem_flatMap.mp hits
      obtain ⟨r, -, rfl⟩ := List.mem_map.mp hit
      exact UInt8.le_trans Std.min_le_right (parseSubscribe_qos parse e there)
  | _ => cases member

theorem Broker.Genuine.sound_act (genuine : b.Genuine) (sound : op.Sound) {s : Broker} {a : Act}
    (ok : op.conforms b s a) : a.Sound := by
  cases a with
  | deliver t topic payload qos retain => exact genuine.messages_qos ok.2.1
  | publish topic payload qos retain => exact genuine.publishCall_qos sound ok.2
  | change t ch =>
    cases ch with
    | connect q =>
      obtain ⟨p, -, -, parse⟩ := Op.permits_connect ok.1
      exact parseConnect_willQos parse
    | retry pid pkt scanned =>
      cases Op.permits_retry ok.1
      exact sound
    | _ => trivial
  | _ => trivial

theorem Broker.Genuine.run (genuine : b.Genuine) (healthy : b.Healthy) (sound : op.Sound) {b' : Broker}
    {out : Outcome} (done : op.run b = .ok (b', out)) : b'.Genuine := by
  refine (op.acts healthy done).keeps healthy Broker.Genuine ?_ genuine
  intro s a s' healthy kept ok next
  exact kept.act healthy (genuine.sound_act sound ok) next

end Sound

/-- The retransmissions still to be queued. -/
def RetryList.Genuine (todo : List (Token × UInt16 × Bytes)) : Prop :=
  ∀ e ∈ todo, ∃ x : Queued, e.2.2 = x.encode

/-- What a program point still has to retransmit was found in a window. -/
def Pc.Genuine : Pc → Prop
  | .packets _ _ _ next failed => next.Genuine ∧ failed.Genuine
  | .close _ next => next.Genuine
  | .flushPending _ scan => RetryList.Genuine scan.retry
  | .sweep _ scan => RetryList.Genuine scan.retry
  | .flushForwards _ scan => RetryList.Genuine scan.retry
  | .sysTopics scan => RetryList.Genuine scan.retry
  | .sysPublish _ scan => RetryList.Genuine scan.retry
  | .reap _ scan => RetryList.Genuine scan.retry
  | .retry todo _ => RetryList.Genuine todo
  | _ => True

/-- What is still to be sent again in this round. -/
def Pc.retries : Pc → List (Token × UInt16 × Bytes)
  | .packets _ _ _ next failed => next.retries ++ failed.retries
  | .close _ next => next.retries
  | .flushPending _ scan => scan.retry
  | .sweep _ scan => scan.retry
  | .flushForwards _ scan => scan.retry
  | .sysTopics scan => scan.retry
  | .sysPublish _ scan => scan.retry
  | .reap _ scan => scan.retry
  | .retry todo _ => todo
  | _ => []

theorem Pc.retries_eq (pc : Pc) : pc.retries = resending.left pc := by
  induction pc with
  | packets t todo n next failed next_eq failed_eq => rw [Pc.retries, next_eq, failed_eq, Errand.left]
  | close t next next_eq => exact next_eq
  | _ => rfl

theorem Pc.genuine_iff (pc : Pc) : pc.Genuine ↔ RetryList.Genuine pc.retries := by
  induction pc with
  | packets t todo n next failed next_iff failed_iff =>
    rw [Pc.Genuine, next_iff, failed_iff, Pc.retries]
    exact List.forall_mem_append.symm
  | close t next next_iff => exact next_iff
  | _ => simp [Pc.Genuine, Pc.retries, RetryList.Genuine]

theorem Broker.Genuine.scan {b : Broker} (genuine : b.Genuine) (retryAfter : Nat) :
    RetryList.Genuine (b.scan retryAfter).retry := by
  intro e member
  obtain ⟨⟨t, c⟩, there, member⟩ := List.mem_flatMap.mp member
  obtain ⟨⟨pid, entry⟩, overdue, rfl⟩ := List.mem_map.mp member
  have listed := (List.mem_filter.mp (List.mem_filter.mp overdue).1).1
  obtain ⟨f, -, -, -, pkt⟩ := (genuine.clients t c ((HashMap.mem_iter _ _ _).mp there)).window pid entry
    ((HashMap.mem_iter _ _ _).mp listed)
  simp only
  rw [retransmit_encode pkt]
  split
  · exact ⟨_, rfl⟩
  · exact ⟨_, rfl⟩

namespace Loop

theorem op_sound {s : Loop} (genuine : s.pc.Genuine) (io : Io) : (s.op io).Sound := by
  have grounds := s.op_grounds io
  cases op : s.op io with
  | publish topic payload qos retain =>
    rw [op] at grounds
    exact grounds.1
  -- Only a retry carries a packet of its own, out of the scan.
  | retry t pid pkt scanned =>
    rw [op] at grounds
    obtain ⟨todo, scan, here, -⟩ := grounds
    rw [here] at genuine
    exact genuine (t, pid, pkt) List.mem_cons_self
  | _ => trivial

/-- The list comes from the scan, and is only shortened from there on. -/
theorem retries_pcAfter {s : Loop} {io : Io} {b : Broker} {out : Outcome}
    {e : Token × UInt16 × Bytes} (listed : e ∈ (s.pcAfter io b out).retries) :
    e ∈ s.pc.retries ∨ s.pc = .events [] ∧ e ∈ (b.scan s.retryAfter).retry := by
  rw [Pc.retries_eq] at listed ⊢
  exact resending.left_pcAfter listed

theorem genuine_pcAfter {s : Loop} (genuine : s.pc.Genuine) (io : Io) {b : Broker} (out : Outcome)
    (after : b.Genuine) : (s.pcAfter io b out).Genuine := by
  rw [Pc.genuine_iff] at genuine ⊢
  intro e listed
  rcases retries_pcAfter listed with old | ⟨-, scanned⟩
  · exact genuine e old
  · exact after.scan s.retryAfter e scanned

/-- What the process holds in every state was built by it. -/
structure Genuine (s : Loop) : Prop where
  healthy : s.broker.Healthy
  broker : s.broker.Genuine
  pc : s.pc.Genuine

theorem Genuine.step {s t : Loop} {io : Io} (genuine : s.Genuine) (done : s.step io = .ok t) :
    t.Genuine := by
  obtain ⟨b, out, ran, rfl⟩ := step_ok.mp done
  have after := genuine.broker.run genuine.healthy (op_sound genuine.pc io) ran
  exact ⟨genuine.healthy.op _ ran, after, genuine_pcAfter genuine.pc io out after⟩

theorem genuine_initial {s : Loop} (start : s.Initial) : s.Genuine := by
  refine ⟨start.startup.healthy, Broker.genuine_startup start.startup, ?_⟩
  rw [start.pc]
  trivial

theorem Reachable.genuine {s : Loop} (reached : s.Reachable) : s.Genuine :=
  Machine.Reaches.invariant Genuine (fun _ start => genuine_initial start)
    (fun _ _ _ genuine _ done => genuine.step done) reached

end Loop
end MioBroker

import Mathlib.Data.Option.Basic
import MioBroker.Publish

/-!
# A slow client does not disturb the others

Two brokers that differ in one connection `slow` at most. A failure of `slow` renumbers `subs`
in one of them and not in the other, so the two delivery loops are compared position by
position: what is still to come is the same in both, and what is gone belongs to `slow`.
-/
namespace MioBroker

open Rust

/-- A window entry without its timestamp. -/
def InFlight.untimed (e : InFlight) : InFlight := { e with sentAt := 0 }

namespace Client

/-- Two clients that agree in everything but the times of their transmissions. -/
structure Alike (c d : Client) : Prop where
  frame : d = { c with inFlight := d.inFlight }
  window : ∀ pid, (c.inFlight.get? pid).map InFlight.untimed =
    (d.inFlight.get? pid).map InFlight.untimed

end Client

/-- The same answer to a message, up to the times. -/
inductive Offer.Alike : Offer → Offer → Prop
  | queued (c d : Client) (alike : Client.Alike c d) : Alike (.queued c) (.queued d)
  | refused : Alike .refused .refused
  | dropped : Alike .dropped .dropped

namespace Client

theorem Alike.refl (c : Client) : Alike c c := ⟨rfl, fun _ => rfl⟩

theorem Alike.contains {c d : Client} (alike : Alike c d) (pid : UInt16) :
    c.inFlight.contains pid = d.inFlight.contains pid := by
  have same := congrArg Option.isSome (alike.window pid)
  simpa [HashMap.contains] using same

theorem Alike.size {c d : Client} (alike : Alike c d) : c.inFlight.size = d.inFlight.size := by
  apply Nat.le_antisymm
  · exact HashMap.size_le_of_keys fun pid e found => (HashMap.contains_iff _ _).mp <|
      (alike.contains pid).symm.trans ((HashMap.contains_iff _ _).mpr ⟨e, found⟩)
  · exact HashMap.size_le_of_keys fun pid e found => (HashMap.contains_iff _ _).mp <|
      (alike.contains pid).trans ((HashMap.contains_iff _ _).mpr ⟨e, found⟩)

theorem allocPidLoop_congr (m n : HashMap UInt16 InFlight)
    (same : ∀ pid, m.contains pid = n.contains pid) (fuel : Nat) (next : UInt16) :
    allocPidLoop m fuel next = allocPidLoop n fuel next := by
  induction fuel generalizing next with
  | zero => rfl
  | succ fuel ih => simp only [allocPidLoop, same, ih]

/-- The packet id depends on the counter and on the ids taken. -/
theorem allocPid_alike (c : Client) (window : HashMap UInt16 InFlight)
    (alike : Alike c { c with inFlight := window }) :
    ∃ next pid, c.allocPid = ({ c with nextPid := next }, pid) ∧
      ({ c with inFlight := window } : Client).allocPid =
        ({ c with inFlight := window, nextPid := next }, pid) := by
  have search := allocPidLoop_congr _ _ alike.contains
  simp only [allocPid, ← alike.size, ← search]
  split
  · exact ⟨_, _, rfl, rfl⟩
  · exact ⟨_, _, rfl, rfl⟩

theorem offer_alike {c d : Client} (alike : Alike c d) (now now' : Instant) (topic : Str)
    (payload : Bytes) (qos : UInt8) (retain : Bool) :
    (c.offer now topic payload qos retain).Alike (d.offer now' topic payload qos retain) := by
  obtain ⟨window, rfl⟩ : ∃ window, d = { c with inFlight := window } := ⟨_, alike.frame⟩
  by_cases unreliable : qos = 0
  · subst unreliable
    by_cases room : c.writeQueue.length < WRITE_QUEUE_CAP
    · rw [offer_qos0_room c now topic payload retain room,
        offer_qos0_room { c with inFlight := window } now' topic payload retain room]
      exact .queued _ _ ⟨rfl, alike.window⟩
    · rw [offer_qos0_full c now topic payload retain (Nat.not_lt.mp room),
        offer_qos0_full { c with inFlight := window } now' topic payload retain (Nat.not_lt.mp room)]
      exact .refused
  · simp only [offer, if_neg unreliable]
    obtain ⟨next, pid, left, right⟩ := allocPid_alike c window alike
    rw [left, right]
    cases pid with
    | none => exact .dropped
    | some pid =>
      simp only [queueQos1]
      -- the room made in the queue is the same: it depends on the queue alone
      rcases makeRoom c.writeQueue.length c.writeQueue with ⟨queue, _ | _⟩
      · exact .dropped
      · refine .queued _ _ ⟨rfl, fun k => ?_⟩
        simp only [HashMap.get?_insert]
        split
        · rfl
        · exact alike.window k

end Client

namespace Broker

/-- One round of the delivery loop: the message for the subscription `s` at position `i`. -/
def round (b : Broker) (topic : Str) (payload : Bytes) (srcQos : UInt8) (i : Nat)
    (s : Subscription) : Broker :=
  match b.deliverTo s.token topic payload (min srcQos s.qos) false with
  | (b, .ok ()) => b
  | (b, .error ()) => { b with subs := swapRemove b.subs i }

theorem deliverAll_round (b : Broker) (topic : Str) (payload : Bytes) (srcQos : UInt8) (i : Nat)
    (s : Subscription) (idxs : List Nat) (delivered dead : Nat) (at_i : b.subs[i]? = some s) :
    ∃ delivered' dead', deliverAll topic payload srcQos (i :: idxs) b delivered dead =
      deliverAll topic payload srcQos idxs (b.round topic payload srcQos i s) delivered' dead' := by
  obtain ⟨lt, rfl⟩ := List.getElem?_eq_some_iff.mp at_i
  rw [deliverAll, Run.index_of_lt b.subs i lt, Run.ok_bind, round]
  rcases b.deliverTo b.subs[i].token topic payload (min srcQos b.subs[i].qos) false with ⟨d, _ | _⟩
  · exact ⟨_, _, rfl⟩
  · exact ⟨_, _, rfl⟩

section Round

variable (b : Broker) (topic : Str) (payload : Bytes) (srcQos : UInt8) (i : Nat) (s : Subscription)

/-- A round keeps the subscriptions when its delivery succeeds; else it removes the one it is for. -/
theorem subs_round : (b.round topic payload srcQos i s).subs =
    match (b.deliverTo s.token topic payload (min srcQos s.qos) false).2 with
    | .ok () => b.subs
    | .error () => swapRemove b.subs i := by
  obtain ⟨clients, sent, log, frame⟩ :=
    b.deliverTo_frame s.token topic payload (min srcQos s.qos) false
  have kept := congrArg Broker.subs frame
  revert kept
  rw [round]
  rcases b.deliverTo s.token topic payload (min srcQos s.qos) false with ⟨d, _ | _⟩
  · rintro kept
    exact congrArg (swapRemove · i) kept
  · exact id

theorem clients_round : (b.round topic payload srcQos i s).clients =
    (b.deliverTo s.token topic payload (min srcQos s.qos) false).1.clients := by
  rw [round]
  rcases b.deliverTo s.token topic payload (min srcQos s.qos) false with ⟨d, _ | _⟩
  · rfl
  · rfl

/-- The positions below the current one keep their meaning. -/
theorem subs_round_below (j : Nat) (lt : i < b.subs.length) (below : j < i) :
    (b.round topic payload srcQos i s).subs[j]? = b.subs[j]? := by
  rw [subs_round]
  split
  · rfl
  · exact getElem?_swapRemove_lt b.subs i j lt below

end Round

/-- The subscriptions of every connection but one. -/
def subsBut (slow : Token) (subs : List Subscription) : List Subscription :=
  subs.filter fun s => s.token ≠ slow

theorem subsBut_swapRemove (slow : Token) (subs : List Subscription) (i : Nat) (s : Subscription)
    (at_i : subs[i]? = some s) :
    (subsBut slow [s] ++ subsBut slow (swapRemove subs i)).Perm (subsBut slow subs) := by
  obtain ⟨lt, rfl⟩ := List.getElem?_eq_some_iff.mp at_i
  rw [subsBut, subsBut, ← List.filter_append]
  exact (swapRemove_perm subs i lt).filter _

/-- A delivery to the slow client, failed or not, costs the others no subscription. -/
theorem subsBut_round_slow (b : Broker) (topic : Str) (payload : Bytes) (srcQos : UInt8) (i : Nat)
    (s : Subscription) (at_i : b.subs[i]? = some s) :
    (subsBut s.token (b.round topic payload srcQos i s).subs).Perm (subsBut s.token b.subs) := by
  rw [subs_round]
  split
  · exact .refl _
  · have whole := subsBut_swapRemove s.token b.subs i s at_i
    rw [subsBut, List.filter_cons_of_neg (by simp)] at whole
    exact whole

/-- Deliveries to clients that are alike get the same answer and leave them alike. -/
theorem deliverTo_alike (b b' : Broker) (token : Token) (topic : Str) (payload : Bytes)
    (qos : UInt8) (alike : Option.Rel Client.Alike (b.clients.get? token) (b'.clients.get? token)) :
    (b.deliverTo token topic payload qos false).2 = (b'.deliverTo token topic payload qos false).2 ∧
      Option.Rel Client.Alike ((b.deliverTo token topic payload qos false).1.clients.get? token)
        ((b'.deliverTo token topic payload qos false).1.clients.get? token) := by
  generalize found : b.clients.get? token = slot, found' : b'.clients.get? token = slot' at alike
  cases alike with
  | none =>
    rw [deliverTo_absent b token topic payload qos false found,
      deliverTo_absent b' token topic payload qos false found']
    exact ⟨rfl, by simp [found, found']⟩
  | @some c d same =>
    have answer := Client.offer_alike same b.now b'.now topic payload qos false
    generalize result : c.offer b.now topic payload qos false = left,
      result' : d.offer b'.now topic payload qos false = right at answer
    cases answer with
    | queued e f queued =>
      rw [deliverTo_queued b token topic payload qos false c e found result,
        deliverTo_queued b' token topic payload qos false d f found' result']
      exact ⟨rfl, by simpa using queued⟩
    | refused =>
      rw [deliverTo_refused b token topic payload qos false c found result,
        deliverTo_refused b' token topic payload qos false d found' result']
      exact ⟨rfl, by simpa [found, found'] using same⟩
    | dropped =>
      rw [deliverTo_dropped b token topic payload qos false c found result,
        deliverTo_dropped b' token topic payload qos false d found' result']
      exact ⟨rfl, by simp⟩

/-- Two brokers in the middle of their delivery loops, the positions `idxs` still to come. -/
structure InStep (slow : Token) (idxs : List Nat) (b b' : Broker) : Prop where
  coming : ∀ i ∈ idxs, ∃ s, b.subs[i]? = some s ∧ b'.subs[i]? = some s
  others : (subsBut slow b.subs).Perm (subsBut slow b'.subs)
  clients : ∀ t, t ≠ slow → Option.Rel Client.Alike (b.clients.get? t) (b'.clients.get? t)

theorem inStep_round (slow : Token) (idxs : List Nat) (b b' : Broker) (topic : Str)
    (payload : Bytes) (srcQos : UInt8) (i : Nat) (s : Subscription)
    (at_i : b.subs[i]? = some s) (at_i' : b'.subs[i]? = some s) (below : ∀ j ∈ idxs, j < i)
    (inStep : InStep slow (i :: idxs) b b') :
    InStep slow idxs (b.round topic payload srcQos i s) (b'.round topic payload srcQos i s) := by
  have lt := (List.getElem?_eq_some_iff.mp at_i).1
  have lt' := (List.getElem?_eq_some_iff.mp at_i').1
  constructor
  · intro j member
    rw [subs_round_below b topic payload srcQos i s j lt (below j member),
      subs_round_below b' topic payload srcQos i s j lt' (below j member)]
    exact inStep.coming j (by simp [member])
  · by_cases own : s.token = slow
    · subst own
      exact (subsBut_round_slow b topic payload srcQos i s at_i).trans <|
        inStep.others.trans (subsBut_round_slow b' topic payload srcQos i s at_i').symm
    · have answers := (deliverTo_alike b b' s.token topic payload (min srcQos s.qos)
        (inStep.clients s.token own)).1
      rw [subs_round, subs_round, ← answers]
      split
      · exact inStep.others
      · -- both lose the same subscription, wherever it stands by now
        have left := subsBut_swapRemove slow b.subs i s at_i
        have right := subsBut_swapRemove slow b'.subs i s at_i'
        exact (List.perm_append_left_iff _).mp (left.trans (inStep.others.trans right.symm))
  · intro t other
    rw [clients_round, clients_round]
    by_cases own : t = s.token
    · subst own
      exact (deliverTo_alike b b' s.token topic payload (min srcQos s.qos)
        (inStep.clients s.token other)).2
    · rw [deliverTo_get?_ne b s.token t topic payload _ false own,
        deliverTo_get?_ne b' s.token t topic payload _ false own]
      exact inStep.clients t other

theorem inStep_deliverAll (slow : Token) (topic : Str) (payload : Bytes) (srcQos : UInt8)
    (idxs : List Nat) (b b' c c' : Broker) (delivered dead delivered' dead' n m n' m' : Nat)
    (descending : idxs.Pairwise (· > ·)) (inStep : InStep slow idxs b b')
    (run : deliverAll topic payload srcQos idxs b delivered dead = .ok (c, n, m))
    (run' : deliverAll topic payload srcQos idxs b' delivered' dead' = .ok (c', n', m')) :
    InStep slow [] c c' := by
  induction idxs generalizing b b' delivered dead delivered' dead' with
  | nil =>
    cases run
    cases run'
    exact inStep
  | cons i idxs ih =>
    -- The indices come highest first, so a pruning moves none of those still to come.
    obtain ⟨below, descending⟩ := List.pairwise_cons.mp descending
    obtain ⟨s, at_i, at_i'⟩ := inStep.coming i (by simp)
    obtain ⟨_, _, next⟩ := deliverAll_round b topic payload srcQos i s idxs delivered dead at_i
    obtain ⟨_, _, next'⟩ := deliverAll_round b' topic payload srcQos i s idxs delivered' dead' at_i'
    exact ih _ _ _ _ _ _ descending
      (inStep_round slow idxs b b' topic payload srcQos i s at_i at_i' below inStep)
      (next ▸ run) (next' ▸ run')

/-! ### The whole call -/

theorem subs_storeRetained (b : Broker) (topic : Str) (payload : Bytes) (srcQos : UInt8)
    (retain : Bool) : (b.storeRetained topic payload srcQos retain).subs = b.subs := by
  obtain ⟨table, dirty, frame⟩ := b.storeRetained_frame topic payload srcQos retain
  rw [frame]

theorem clients_storeRetained (b : Broker) (topic : Str) (payload : Bytes) (srcQos : UInt8)
    (retain : Bool) : (b.storeRetained topic payload srcQos retain).clients = b.clients := by
  obtain ⟨table, dirty, frame⟩ := b.storeRetained_frame topic payload srcQos retain
  rw [frame]

/-- Connections and subscriptions after a `publish` are those its delivery loop leaves. -/
theorem publish_deliverAll (b c : Broker) (indexed : b.Indexed) (topic : Str) (payload : Bytes)
    (srcQos : UInt8) (retain : Bool) (n failed : Nat)
    (run : b.publish topic payload srcQos retain = .ok (c, n, failed)) :
    ∃ d delivered dead,
      deliverAll topic payload srcQos (positions (matching topic) b.subs).reverse
        (b.storeRetained topic payload srcQos retain) 0 0 = .ok (d, delivered, dead) ∧
      c.subs = d.subs ∧ c.clients = d.clients := by
  obtain ⟨table, dirty, stored⟩ := b.storeRetained_frame topic payload srcQos retain
  rw [publish, stored] at run
  rw [stored]
  simp only at run
  split at run
  next nowhere =>
    obtain ⟨no_subs, -⟩ : b.subs = [] ∧ b.sessions.isEmpty = true := by simpa using nowhere
    cases run
    -- Without subscriptions the loop has no index to visit.
    have none_match : (positions (matching topic) b.subs).reverse = [] := by
      rw [no_subs]
      rfl
    rw [none_match]
    exact ⟨_, 0, 0, rfl, rfl, rfl⟩
  next =>
    obtain ⟨⟨live, count⟩, one, rest⟩ := Run.bind_ok.mp run
    obtain ⟨idxs, kept, sorted⟩ :=
      sorted_candidates { b with retained := table, dirty := dirty } indexed topic
    rw [deliverLive, kept, Run.ok_bind] at one
    simp only [sorted] at one
    obtain ⟨⟨d, delivered, dead⟩, loop, last⟩ := Run.bind_ok.mp one
    cases last
    cases rest
    obtain ⟨sessions, dirty', offline⟩ := storeOffline_frame
      (if dead > 0 then ({ d with deadPruned := d.deadPruned + dead } : Broker).rebuildIndex
        else { d with deadPruned := d.deadPruned + dead }) topic payload srcQos
    refine ⟨d, delivered, dead, loop, ?_, ?_⟩
    · rw [offline]
      split
      · rw [rebuildIndex_frame]
      · rfl
    · rw [offline]
      split
      · rw [rebuildIndex_frame]
      · rfl

/-- Two brokers that agree on everything a `publish` reads, one connection apart. -/
structure AgreeBut (slow : Token) (b b' : Broker) : Prop where
  subs : b.subs = b'.subs
  subsExact : b.subsExact = b'.subsExact
  subsWild : b.subsWild = b'.subsWild
  retained : b.retained.Equiv b'.retained
  sessions : b.sessions.Equiv b'.sessions
  clients : ∀ t, t ≠ slow → Option.Rel Client.Alike (b.clients.get? t) (b'.clients.get? t)

theorem AgreeBut.indexed {slow : Token} {b b' : Broker} (agree : AgreeBut slow b b')
    (indexed : b.Indexed) : b'.Indexed := by
  rw [Indexed, ← agree.subs, ← agree.subsExact, ← agree.subsWild]
  exact indexed

theorem AgreeBut.inStep {slow : Token} {b b' : Broker} (agree : AgreeBut slow b b') (topic : Str)
    (payload : Bytes) (srcQos : UInt8) (retain : Bool) :
    InStep slow (positions (matching topic) b.subs).reverse
      (b.storeRetained topic payload srcQos retain) (b'.storeRetained topic payload srcQos retain) := by
  constructor
  · intro i member
    obtain ⟨s, found, -⟩ := (mem_positions _ _ _).mp (List.mem_reverse.mp member)
    rw [subs_storeRetained, subs_storeRetained, ← agree.subs]
    exact ⟨s, found, found⟩
  · rw [subs_storeRetained, subs_storeRetained, ← agree.subs]
  · rw [clients_storeRetained, clients_storeRetained]
    exact agree.clients

theorem AgreeBut.storeRetained {slow : Token} {b b' : Broker} (agree : AgreeBut slow b b')
    (topic : Str) (payload : Bytes) (srcQos : UInt8) (retain : Bool) :
    (b.storeRetained topic payload srcQos retain).retained.Equiv
      (b'.storeRetained topic payload srcQos retain).retained := by
  intro k
  have before := agree.retained k
  simp only [Broker.storeRetained]
  split
  · split
    · simp only [HashMap.get?_erase, before]
    · simp only [HashMap.get?_insert, before]
  · exact before

/-- The subscriptions of a connection to which no delivery failed are all still there. -/
theorem Published.unpruned {b c : Broker} {topic : Str} {payload : Bytes} {srcQos : UInt8}
    {retain : Bool} (published : Published b c topic payload srcQos retain) (t : Token)
    (none_failed : Client.failures b.now topic payload (b.forwards t topic srcQos)
      (b.clients.get? t) = 0) :
    (c.subs.filter fun s => s.token = t).Perm (b.subs.filter fun s => s.token = t) := by
  have count := published.pruned t
  rw [none_failed, List.countP_eq_length_filter, List.countP_eq_length_filter] at count
  exact (published.subperm.filter _).perm_of_length_le (Nat.le_of_eq count.symm)

/-- What a `publish` does for every other connection does not depend on the slow one: how full
its queue and its window are, where its counter stands, whether it is connected at all. -/
theorem publish_isolated (slow : Token) (b b' : Broker) (topic : Str) (payload : Bytes)
    (srcQos : UInt8) (retain : Bool) (indexed : b.Indexed) (agree : AgreeBut slow b b') :
    ∃ c c' n n',
      b.publish topic payload srcQos retain = .ok (c, n, 0) ∧
      b'.publish topic payload srcQos retain = .ok (c', n', 0) ∧
      (∀ t, t ≠ slow → Option.Rel Client.Alike (c.clients.get? t) (c'.clients.get? t)) ∧
      c.retained.Equiv c'.retained ∧
      c.sessions.Equiv c'.sessions ∧
      (subsBut slow c.subs).Perm (subsBut slow c'.subs) ∧
      (subsBut slow c.subs).Subperm (subsBut slow b.subs) ∧
      ∀ t, t ≠ slow →
        Client.failures b.now topic payload (b.forwards t topic srcQos) (b.clients.get? t) = 0 →
        (c.subs.filter fun s => s.token = t).Perm (b.subs.filter fun s => s.token = t) := by
  obtain ⟨c, n, run, published⟩ := b.publish_spec indexed topic payload srcQos retain
  obtain ⟨c', n', run', published'⟩ :=
    b'.publish_spec (agree.indexed indexed) topic payload srcQos retain
  obtain ⟨d, _, _, loop, subs, clients⟩ :=
    b.publish_deliverAll c indexed topic payload srcQos retain n 0 run
  obtain ⟨d', _, _, loop', subs', clients'⟩ :=
    b'.publish_deliverAll c' (agree.indexed indexed) topic payload srcQos retain n' 0 run'
  rw [← agree.subs] at loop'
  have descending : (positions (matching topic) b.subs).reverse.Pairwise (· > ·) :=
    List.pairwise_reverse.mpr (sorted_positions _ _)
  -- The two brokers go through the same indices side by side.
  have inStep := inStep_deliverAll slow topic payload srcQos _ _ _ d d' 0 0 0 0 _ _ _ _ descending
    (agree.inStep topic payload srcQos retain) loop loop'
  refine ⟨c, c', n, n', run, run', ?_, ?_, fun cid => ?_, ?_, published.subperm.filter _, ?_⟩
  · rw [clients, clients']
    exact inStep.clients
  · rw [published.retained, published'.retained]
    exact agree.storeRetained topic payload srcQos retain
  · rw [published.sessions, published'.sessions, agree.sessions cid]
  · rw [subs, subs']
    exact inStep.others
  · exact fun t _ none_failed => published.unpruned t none_failed

/-- Three connections with one subscription each; the first has no room in its queue. -/
def crowded : Broker :=
  let client (token : Token) : Client := .accepted token default default
  let slow : Client :=
    { client 1 with writeQueue := List.replicate WRITE_QUEUE_CAP (true, []) }
  let topic := Str.fromUtf8Lossy (ascii "t")
  let b := Broker.new ⟨default, default, default, default⟩ 0 ⟨none, none⟩
  rebuildIndex { b with
    clients := ((b.clients.insert 1 slow).insert 2 (client 2)).insert 3 (client 3)
    subs := [⟨topic, 2, 1⟩, ⟨topic, 1, 1⟩, ⟨topic, 3, 0⟩] }

theorem agreeBut_erase (b : Broker) (slow : Token) :
    AgreeBut slow b { b with clients := b.clients.erase slow } := by
  refine ⟨rfl, rfl, rfl, fun _ => rfl, fun _ => rfl, fun t other => ?_⟩
  simp only [HashMap.get?_erase_ne _ other]
  cases b.clients.get? t with
  | none => exact .none
  | some c => exact .some (.refl c)

theorem publish_isolated_crowded :
    ∃ c c' n n',
      crowded.publish (.fromUtf8Lossy (ascii "t")) [1] 1 true = .ok (c, n, 0) ∧
      { crowded with clients := crowded.clients.erase 1 }.publish
        (.fromUtf8Lossy (ascii "t")) [1] 1 true = .ok (c', n', 0) ∧
      (∀ t, t ≠ 1 → Option.Rel Client.Alike (c.clients.get? t) (c'.clients.get? t)) ∧
      (subsBut 1 c.subs).Perm (subsBut 1 c'.subs) := by
  obtain ⟨c, c', n, n', run, run', clients, -, -, subs, -⟩ :=
    publish_isolated 1 crowded { crowded with clients := crowded.clients.erase 1 }
      (.fromUtf8Lossy (ascii "t")) [1] 1 true (indexed_rebuildIndex _) (agreeBut_erase crowded 1)
  exact ⟨c, c', n, n', run, run', clients, subs⟩

end Broker
end MioBroker

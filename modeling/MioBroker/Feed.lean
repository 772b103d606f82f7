import MioBroker.Health

/-!
# Sequences of acts, and direct deliveries

The session flush and the retained delivery hand messages to one connection until one fails.
They erase it exactly when its window or its queue runs full of reliable traffic on the way.
-/
namespace MioBroker

open Rust

/-- The act makes `deliver_to` erase a connection. -/
def Act.Erases (b : Broker) : Act → Prop
  | .deliver t topic payload qos retain =>
    ∃ c, b.clients.get? t = some c ∧ c.offer b.now topic payload qos retain = .dropped
  | .publish topic payload qos _ =>
    ∃ t c, b.clients.get? t = some c ∧
      Client.serve b.now topic payload (b.forwards t topic qos) (some c) = none
  | _ => False

/-- The act makes `deliver_to` erase this connection. -/
def Act.ErasesAt (b : Broker) (k : Token) : Act → Prop
  | .deliver t topic payload qos retain =>
    t = k ∧ ∃ c, b.clients.get? t = some c ∧ c.offer b.now topic payload qos retain = .dropped
  | .publish topic payload qos _ =>
    ∃ c, b.clients.get? k = some c ∧
      Client.serve b.now topic payload (b.forwards k topic qos) (some c) = none
  | _ => False

theorem Act.ErasesAt.erases {b : Broker} {k : Token} {a : Act} (erased : a.ErasesAt b k) :
    a.Erases b := by
  cases a with
  | deliver t topic payload qos retain => exact erased.2
  | publish topic payload qos retain => exact ⟨k, erased⟩
  | _ => exact erased.elim

/-- From `b` a sequence of acts, each admitted by `ok`, leads to `b'`. -/
def Acts (ok : Broker → Act → Prop) (b b' : Broker) : Prop := ∃ acts, Act.Path ok b acts b'

namespace Acts

variable {ok : Broker → Act → Prop} {a b c : Broker}

theorem refl (b : Broker) : Acts ok b b := ⟨[], .nil⟩

theorem trans (first : Acts ok a b) (second : Acts ok b c) : Acts ok a c := by
  obtain ⟨acts, path⟩ := first
  obtain ⟨acts', path'⟩ := second
  exact ⟨acts ++ acts', path.append path'⟩

theorem one (act : Act) (admitted : ok a act) (done : act.run a = .ok b) : Acts ok a b :=
  ⟨[act], .single act admitted done⟩

theorem mono {ok' : Broker → Act → Prop} (acts : Acts ok a b) (weaker : ∀ b a, ok b a → ok' b a) :
    Acts ok' a b := by
  obtain ⟨acts, path⟩ := acts
  exact ⟨acts, path.mono weaker⟩

theorem invariant (acts : Acts ok a b) (inv : Broker → Prop)
    (kept : ∀ s act t, inv s → ok s act → act.run s = .ok t → inv t) (start : inv a) : inv b := by
  obtain ⟨acts, path⟩ := acts
  exact path.invariant inv kept start

theorem healthy (acts : Acts ok a b) (healthy : a.Healthy) : b.Healthy :=
  acts.invariant Broker.Healthy (fun _ act _ before _ done => before.act act done) healthy

/-- What every act keeps while index and caps are in order. -/
theorem keeps (acts : Acts ok a b) (healthy : a.Healthy) (inv : Broker → Prop)
    (kept : ∀ s act t, s.Healthy → inv s → ok s act → act.run s = .ok t → inv t) (start : inv a) :
    inv b := by
  refine (acts.invariant (fun s => s.Healthy ∧ inv s) ?_ ⟨healthy, start⟩).2
  rintro s act t ⟨healthy, holds⟩ admitted done
  exact ⟨healthy.act act done, kept s act t healthy holds admitted done⟩

/-- An update of bookkeeping fields only. -/
theorem account (b b' : Broker) (admitted : ∀ b b', ok b (.account b'))
    (same : (Act.account b').run b = .ok b') : Acts ok b b' := one _ (admitted b b') same

end Acts

/-! ### Direct deliveries -/

namespace Client

/-- How much of its window and queue a client has used. -/
def overruns (c : Client) (qs : List UInt8) : Bool :=
  overrun c.inFlight.size c.reliable c.writeQueue.length qs

theorem overruns_queued {c d : Client} (capped : c.Capped) (now : Instant) (topic : Str)
    (payload : Bytes) (qos : UInt8) (retain : Bool) (qs : List UInt8)
    (done : c.offer now topic payload qos retain = .queued d) :
    c.overruns (qos :: qs) = d.overruns qs := by
  by_cases unreliable : qos = 0
  · subst unreliable
    obtain ⟨room, window, reliable, queue⟩ := offer_qos0_counts c d now topic payload retain done
    simp [overruns, overrun, room, window, reliable, queue]
  · obtain ⟨window, reliable, queue⟩ :=
      offer_reliable_counts c d now topic payload qos retain unreliable capped.queue done
    have room := (offer_reliable_iff c now topic payload qos retain unreliable capped.queue).mp ⟨d, done⟩
    simp [overruns, overrun, unreliable, room, window, reliable, queue]

theorem overruns_dropped {c : Client} (capped : c.Capped) (now : Instant) (topic : Str)
    (payload : Bytes) (qos : UInt8) (retain : Bool) (qs : List UInt8)
    (done : c.offer now topic payload qos retain = .dropped) : c.overruns (qos :: qs) = true := by
  by_cases unreliable : qos = 0
  · subst unreliable
    simp only [offer, if_true] at done
    split at done <;> cases done
  · have full : ¬(c.inFlight.size < IN_FLIGHT_CAP ∧ c.reliable < WRITE_QUEUE_CAP) := by
      rw [← offer_reliable_iff c now topic payload qos retain unreliable capped.queue, done]
      simp
    simp [overruns, overrun, unreliable, full]

end Client

namespace Broker

/-- What the messages still to come would do to the connection, if it is there. -/
def overrunsAt (b : Broker) (t : Token) (qs : List UInt8) : Prop :=
  ∃ c, b.clients.get? t = some c ∧ c.overruns qs = true

/-- One direct delivery. -/
theorem deliver_act (b : Broker) (healthy : b.Healthy) (t : Token) (topic : Str) (payload : Bytes)
    (qos : UInt8) (retain : Bool) (qs : List UInt8) :
    (Act.Erases b (.deliver t topic payload qos retain) → b.overrunsAt t (qos :: qs)) ∧
      ((b.deliverTo t topic payload qos retain).2 = .ok () →
        (b.deliverTo t topic payload qos retain).1.overrunsAt t qs → b.overrunsAt t (qos :: qs)) := by
  constructor
  · rintro ⟨c, found, dropped⟩
    exact ⟨c, found, Client.overruns_dropped (healthy.capped t c found) _ _ _ _ _ _ dropped⟩
  · intro done later
    cases found : b.clients.get? t with
    | none =>
      rw [deliverTo_absent b t topic payload qos retain found] at done
      cases done
    | some c =>
      cases result : c.offer b.now topic payload qos retain with
      | queued d =>
        rw [deliverTo_queued b t topic payload qos retain c d found result] at later
        obtain ⟨d', found', exceeds⟩ := later
        simp only [HashMap.get?_insert_self, Option.some.injEq] at found'
        subst found'
        refine ⟨c, found, ?_⟩
        rw [Client.overruns_queued (healthy.capped t c found) _ _ _ _ _ qs result]
        exact exceeds
      | refused =>
        rw [deliverTo_refused b t topic payload qos retain c found result] at done
        cases done
      | dropped =>
        rw [deliverTo_dropped b t topic payload qos retain c found result] at done
        cases done

/-- Direct deliveries are a sequence of `deliver` acts, and erase nothing unless they overrun
the connection; when all of them succeed, what follows overruns it only if all together do. -/
theorem deliverEach_acts (t : Token) (retain : Bool) (msgs : List (Str × Bytes × UInt8))
    (rest : List UInt8) (b : Broker) (healthy : b.Healthy) :
    Acts (fun s a => (∃ m ∈ msgs, a = .deliver t m.1 m.2.1 m.2.2 retain) ∧
        (a.Erases s → b.overrunsAt t (msgs.map (fun m => m.2.2) ++ rest)))
      b (deliverEach t retain msgs b).1 ∧
    ((deliverEach t retain msgs b).2 = .ok () →
      (deliverEach t retain msgs b).1.overrunsAt t rest →
        b.overrunsAt t (msgs.map (fun m => m.2.2) ++ rest)) := by
  induction msgs generalizing b with
  | nil => exact ⟨.refl b, fun _ exceeds => exceeds⟩
  | cons m msgs ih =>
    obtain ⟨topic, payload, qos⟩ := m
    obtain ⟨erases, later⟩ :=
      b.deliver_act healthy t topic payload qos retain (msgs.map (fun m => m.2.2) ++ rest)
    have first : Acts (fun s a =>
        (∃ m ∈ (topic, payload, qos) :: msgs, a = .deliver t m.1 m.2.1 m.2.2 retain) ∧
        (a.Erases s → b.overrunsAt t (qos :: (msgs.map (fun m => m.2.2) ++ rest))))
        b (b.deliverTo t topic payload qos retain).1 :=
      .one (.deliver t topic payload qos retain) ⟨⟨_, List.mem_cons_self, rfl⟩, erases⟩ rfl
    have healthy' := healthy.deliver t topic payload qos retain
    simp only [deliverEach, List.map_cons, List.cons_append]
    clear erases
    generalize b.deliverTo t topic payload qos retain = result at later first healthy' ⊢
    rcases result with ⟨b', ⟨⟨⟩⟩ | ⟨⟨⟩⟩⟩
    · exact ⟨first, fun done => by cases done⟩
    · obtain ⟨acts, after⟩ := ih b' healthy'
      refine ⟨first.trans (acts.mono fun s a ok => ⟨?_, fun erased => ?_⟩), fun done exceeds => ?_⟩
      · obtain ⟨m, member, same⟩ := ok.1
        exact ⟨m, List.mem_cons_of_mem _ member, same⟩
      · exact later rfl (ok.2 erased)
      · exact later rfl (after done exceeds)

end Broker

end MioBroker

import MioBroker.Threads

/-!
# What a turn can do

Every case of a turn with what it was taken under, as one relation; the invariants of all
schedules are proved from it.
-/
namespace MioBroker.Threaded

open Rust

/-- What an action makes of the broker, as far as it is one that changes the broker. -/
def Action.effect (t : Token) (b : Broker) : Action → Option Broker
  | .pushId cid => some { b with clientIds := b.clientIds ++ [cid] }
  | .subscribe filter qos => some (b.subscribe filter qos t t)
  | .unsubscribe filter => some (b.unsubscribe filter t)
  | .retain _ _ [] out => some { b with
      subs := out.kept
      drops := b.drops + out.dropped
      deadSubs := b.deadSubs + out.dead }
  | .disconnectClient => some (b.disconnectClient t)
  | .retainIds cid => some { b with clientIds := b.clientIds.filter fun c => c != cid }
  | _ => none

namespace Process

inductive Acts (p : Process) (t : Token) (r : Reader) (rest : List Action) : Action → Process → Prop
  | lock {job : Job} (free : p.lock = none) :
    Acts p t r rest (.lock job)
      ({ p with lock := some ⟨t, job, []⟩ }.setReader t { r with todo := rest })
  | change {a : Action} {b : Broker} (effect : a.effect t p.broker = some b) :
    Acts p t r rest a ({ p with broker := b }.setReader t { r with todo := rest })
  | publish {topic : Str} {payload : Bytes} :
    Acts p t r rest (.publish topic payload) (p.setReader t { r with
      todo := .retain topic (buildForward topic.bytes payload) p.broker.subs ⟨[], 0, 0, 0⟩ :: rest })
  | attempt {topic : Str} {pkt : Bytes} {s : Subscription} {todo : List Subscription}
      {out : World.Fanout} {q : Process} {result : TrySend} (wanted : topicMatches s.filter topic = true)
      (tried : p.trySend s.tx pkt = (q, result)) :
    Acts p t r rest (.retain topic pkt (s :: todo) out)
      ((q.note s result).setReader t
        { r with todo := .retain topic pkt todo (out.count s result) :: rest })
  | skip {topic : Str} {pkt : Bytes} {s : Subscription} {todo : List Subscription}
      {out : World.Fanout} (unwanted : topicMatches s.filter topic = false) :
    Acts p t r rest (.retain topic pkt (s :: todo) out)
      (p.setReader t
        { r with todo := .retain topic pkt todo { out with kept := out.kept ++ [s] } :: rest })
  | unlock : Acts p t r rest .unlock
      ({ p with lock := none, log := p.log ++ p.lock.toList }.setReader t { r with todo := rest })
  | ignored {pkt : Bytes} {l : Line} (line : p.lines t = some l) (deaf : l.tx.connected = false) :
    Acts p t r rest (.send pkt) (p.setReader t { r with todo := rest })
  | send {pkt : Bytes} {l : Line} (line : p.lines t = some l) (connected : l.tx.connected = true)
      (room : l.tx.queue.length < SUB_QUEUE_CAP) :
    Acts p t r rest (.send pkt) ((p.setLine t (l.push false pkt)).setReader t { r with todo := rest })

inductive Moves (p : Process) : Turn → Process → Prop
  | refused : Moves p (.accept false) { p with nextToken := p.nextToken + 1 }
  | accepted : Moves p (.accept true)
      (({ p with nextToken := p.nextToken + 1 }.setReader p.nextToken .start).setLine p.nextToken .start)
  | receive {t : Token} {r : Reader} (bytes : Bytes) (reader : p.readers t = some r) (idle : r.todo = [])
      (stage : r.stage = .serving) : Moves p (.read t bytes) (p.setReader t (r.receive bytes))
  | returns {t : Token} {r : Reader} (bytes : Bytes) (reader : p.readers t = some r) (idle : r.todo = [])
      (stage : r.stage = .leaving) : Moves p (.read t bytes) (p.setReader t { r with stage := .returned })
  | act {t : Token} {r : Reader} {a : Action} {rest : List Action} {q : Process}
      (reader : p.readers t = some r) (todo : r.todo = a :: rest) (acts : p.Acts t r rest a q) :
    Moves p (.act t) q
  | take {t : Token} {l : Line} {pkt : Bytes} {queue : List Bytes} (line : p.lines t = some l)
      (waiting : l.writer = .waiting) (queued : l.tx.queue = pkt :: queue) :
    Moves p (.take t) (p.setLine t { l with tx := { l.tx with queue }, writer := .writing pkt })
  | wrote {t : Token} {l : Line} {pkt : Bytes} (line : p.lines t = some l)
      (writing : l.writer = .writing pkt) :
    Moves p (.wrote t true) (p.setLine t { l with writer := .waiting, written := l.written ++ [pkt] })
  | broke {t : Token} {l : Line} {pkt : Bytes} (line : p.lines t = some l)
      (writing : l.writer = .writing pkt) : Moves p (.wrote t false) (p.setLine t l.close)
  | hangUp {t : Token} {l : Line} (line : p.lines t = some l) (waiting : l.writer = .waiting)
      (empty : l.tx.queue = []) (unreachable : p.hasSender t = false) :
    Moves p (.hangUp t) (p.setLine t l.close)

variable {p q : Process} {t : Token} {r : Reader} {rest : List Action}

/-- A `try_send` touches the channel only, and that only when it succeeds. -/
theorem trySend_cases {tx : Token} {pkt : Bytes} {result : TrySend} (tried : p.trySend tx pkt = (q, result)) :
    (∃ l, p.lines tx = some l ∧ l.tx.connected = true ∧ l.tx.queue.length < SUB_QUEUE_CAP ∧ result = .ok ∧
      q = p.setLine tx (l.push true pkt)) ∨ result ≠ .ok ∧ q = p := by
  simp only [trySend] at tried
  split at tried
  next l line =>
    simp only [Channel.trySend] at tried
    by_cases connected : l.tx.connected = true
    · by_cases room : l.tx.queue.length < SUB_QUEUE_CAP
      · simp only [connected, room, if_true] at tried
        cases tried
        exact .inl ⟨l, line, connected, room, rfl, rfl⟩
      · simp only [connected, room, if_true, if_false] at tried
        cases tried
        exact .inr ⟨by simp, rfl⟩
    · simp only [connected] at tried
      cases tried
      exact .inr ⟨by simp, rfl⟩
  next =>
    cases tried
    exact .inr ⟨by simp, rfl⟩

theorem trySend_frame {tx : Token} {pkt : Bytes} {result : TrySend} (tried : p.trySend tx pkt = (q, result)) :
    q = { p with lines := q.lines } := by
  rcases trySend_cases tried with ⟨l, -, -, -, -, rfl⟩ | ⟨-, rfl⟩
  · rfl
  · rfl

theorem act_acts {a : Action} (done : p.act t r rest a = .ok q) : p.Acts t r rest a q := by
  cases a with
  | lock job =>
    simp only [act] at done
    split at done
    next free =>
      cases done
      exact .lock free
    next => cases done
  | retain topic pkt todo out =>
    cases todo with
    | nil =>
      cases done
      exact .change rfl
    | cons s todo =>
      simp only [act] at done
      split at done
      next wanted =>
        cases done
        exact .attempt wanted rfl
      next unwanted =>
        cases done
        exact .skip (by simpa using unwanted)
  | publish topic payload =>
    cases done
    exact .publish
  | unlock =>
    cases done
    exact .unlock
  | send pkt =>
    simp only [act] at done
    split at done
    next l line =>
      split at done
      next deaf =>
        cases done
        exact .ignored line (by simpa using deaf)
      next connected =>
        split at done
        next room =>
          cases done
          exact .send line (by simpa using connected) room
        next => cases done
    next => cases done
  | _ =>
    cases done
    exact .change rfl

theorem step_moves {turn : Turn} (done : p.step turn = .ok q) : p.Moves turn q := by
  cases turn with
  | accept cloned =>
    cases cloned with
    | false =>
      cases done
      exact .refused
    | true =>
      cases done
      exact .accepted
  | read t bytes =>
    simp only [step] at done
    split at done
    next r reader =>
      split at done
      next idle stage =>
        cases done
        exact .receive bytes reader idle stage
      next idle stage =>
        cases done
        exact .returns bytes reader idle stage
      next => cases done
    next => cases done
  | act t =>
    simp only [step] at done
    split at done
    next r reader =>
      split at done
      next a rest todo => exact .act reader todo (act_acts done)
      next => cases done
    next => cases done
  | take t =>
    simp only [step] at done
    split at done
    next l line =>
      split at done
      next pkt queue waiting queued =>
        cases done
        exact .take line waiting queued
      next => cases done
    next => cases done
  | wrote t ok =>
    simp only [step] at done
    split at done
    next l line =>
      split at done
      next pkt writing =>
        cases ok with
        | true =>
          cases done
          exact .wrote line writing
        | false =>
          cases done
          exact .broke line writing
      next => cases done
    next => cases done
  | hangUp t =>
    simp only [step] at done
    split at done
    next l line =>
      split at done
      next waiting empty =>
        split at done
        next => cases done
        next unreachable =>
          cases done
          exact .hangUp line waiting empty (by simpa using unreachable)
      next => cases done
    next => cases done

/-- What every turn keeps holds in every state, whatever is known of reachable states already. -/
@[elab_as_elim]
theorem Reachable.induct {inv : Process → Prop} (start : inv .new)
    (kept : ∀ p turn q, p.Reachable → inv p → p.Moves turn q → inv q) (reached : p.Reachable) : inv p := by
  have both : p.Reachable ∧ inv p := by
    refine Machine.Reaches.invariant (fun p => p.Reachable ∧ inv p) ?_ ?_ reached
    · rintro p rfl
      exact ⟨.initial rfl, start⟩
    · rintro p turn q ⟨reached, holds⟩ - done
      exact ⟨reached.next trivial done, kept p turn q reached holds (step_moves done)⟩
  exact both.2

/-- Turns that can be taken one after the other, into a state passing a check. -/
theorem exists_path (p : Process) (turns : List Turn) (check : Process → Bool)
    (passed : (Machine.runChecked step (fun _ _ => true) p turns).any check = true) :
    ∃ q, Machine.Path step (fun _ _ => True) p turns q ∧ check q = true := by
  obtain ⟨q, done, checked⟩ := (Option.any_eq_true _ _).mp passed
  exact ⟨q, (Machine.runChecked_path _ _ _ _ _ done).mono fun _ _ _ => trivial, checked⟩

theorem exists_reachable (turns : List Turn) (check : Process → Bool)
    (passed : (Machine.runChecked step (fun _ _ => true) .new turns).any check = true) :
    ∃ q : Process, q.Reachable ∧ check q = true := by
  obtain ⟨q, path, checked⟩ := exists_path .new turns check passed
  exact ⟨q, ⟨.new, turns, rfl, path⟩, checked⟩

/-- Two connections, of which the first has subscribed to `a`, with its SUBACK still in the channel. -/
def subscribed : List Turn :=
  [.accept true, .accept true, .read 1 [0x82, 6, 0, 1, 0, 1, 97, 0], .act 1, .act 1, .act 1, .act 1]

end Process
end MioBroker.Threaded

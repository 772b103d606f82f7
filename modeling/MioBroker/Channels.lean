import MioBroker.Sections

/-!
# What the channels carry

A channel is first in, first out and bounded, and what `publish` puts into it follows the critical
sections. So all connections see the messages in one order, whatever the scheduler does.
-/
namespace MioBroker.Threaded

open Rust

/-- The packet a writer thread has in hand. -/
def Writer.current : Writer → List Bytes
  | .writing pkt => [pkt]
  | _ => []

namespace Line

/-- What `publish` put into the channel. -/
def forwarded (l : Line) : List Bytes := (l.accepted.filter Prod.fst).map Prod.snd

/-- The packets of a channel are written in order, and none is skipped. -/
structure Sound (l : Line) : Prop where
  bounded : l.tx.queue.length ≤ SUB_QUEUE_CAP
  connected : l.tx.connected = true ↔ l.writer ≠ .ended
  whole : l.writer ≠ .ended → l.accepted.map Prod.snd = l.written ++ l.writer.current ++ l.tx.queue
  written : l.written <+: l.accepted.map Prod.snd

namespace Sound

variable {l : Line} {pkt : Bytes} {queue : List Bytes}

theorem start : Line.start.Sound := ⟨by decide, by simp [Line.start, Channel.new], fun _ => rfl, List.prefix_rfl⟩

theorem push (sound : l.Sound) (room : l.tx.queue.length < SUB_QUEUE_CAP) (published : Bool)
    (pkt : Bytes) : (l.push published pkt).Sound where
  bounded := by
    simp only [Line.push, List.length_append, List.length_singleton]
    exact room
  connected := sound.connected
  whole running := by
    simp only [Line.push, List.map_append, List.map_cons, List.map_nil]
    rw [sound.whole running, List.append_assoc]
  written := by
    simp only [Line.push, List.map_append]
    exact sound.written.trans (List.prefix_append _ _)

theorem take (sound : l.Sound) (waiting : l.writer = .waiting) (queued : l.tx.queue = pkt :: queue) :
    Line.Sound { l with tx := { l.tx with queue }, writer := .writing pkt } where
  bounded := by
    have bounded := sound.bounded
    rw [queued] at bounded
    exact Nat.le_of_succ_le bounded
  connected := by
    have connected := sound.connected
    simp only [waiting] at connected
    simpa using connected
  whole _ := by
    rw [sound.whole (by simp [waiting]), waiting, queued]
    simp [Writer.current]
  written := sound.written

theorem wrote (sound : l.Sound) (writing : l.writer = .writing pkt) :
    Line.Sound { l with writer := .waiting, written := l.written ++ [pkt] } := by
  have whole := sound.whole (by simp [writing])
  rw [writing] at whole
  refine ⟨sound.bounded, ?_, fun _ => ?_, ?_⟩
  · have connected := sound.connected
    simp only [writing] at connected
    simpa using connected
  · simpa [Writer.current] using whole
  · exact ⟨l.tx.queue, by simpa [Writer.current] using whole.symm⟩

theorem close (sound : l.Sound) : l.close.Sound :=
  ⟨Nat.zero_le _, by simp [Line.close], fun running => absurd rfl running, sound.written⟩

end Sound

end Line

/-- What a critical section puts into the channel of a connection: a copy of the message for every
subscription that was tried with success. -/
def Section.copies (t : Token) (sec : Section) : List Bytes :=
  match sec.job with
  | .publish topic payload =>
    List.replicate (sec.attempts.countP fun e => e.2.isOk && e.1.tx == t)
      (buildForward topic.bytes payload)
  | _ => []

namespace Process

/-- What `publish` put into the channel of a connection. -/
def forwarded (p : Process) (t : Token) : List Bytes := ((p.lines t).map Line.forwarded).getD []

/-- Every connection that was accepted has its channel. -/
structure Lined (p : Process) : Prop where
  given : ∀ t, p.nextToken ≤ t → p.lines t = none
  paired : ∀ t r, p.readers t = some r → ∃ l, p.lines t = some l
  sound : ∀ t l, p.lines t = some l → l.Sound

/-- The channels hold what the critical sections put into them. -/
def Copied (p : Process) : Prop :=
  ∀ t, p.forwarded t = (p.log ++ p.lock.toList).flatMap (Section.copies t)

variable {p q : Process} {start : Broker} {t : Token} {r : Reader} {l : Line} {turn : Turn}

theorem Lined.setLine {l' : Line} (lined : p.Lined) (line : p.lines t = some l) (sound : l'.Sound) :
    (p.setLine t l').Lined where
  given u new := by
    have other : u ≠ t := by
      rintro rfl
      rw [lined.given u new] at line
      cases line
    rw [setLine_other _ _ _ _ other]
    exact lined.given u new
  paired u s reader := by
    by_cases here : u = t
    · exact ⟨l', here ▸ setLine_self _ _ _⟩
    · rw [setLine_other _ _ _ _ here]
      exact lined.paired u s reader
  sound u m there := by
    by_cases here : u = t
    · rw [here, setLine_self] at there
      cases there
      exact sound
    · rw [setLine_other _ _ _ _ here] at there
      exact lined.sound u m there

theorem Lined.setReader {r' : Reader} (lined : p.Lined) (reader : p.readers t = some r) :
    (p.setReader t r').Lined where
  given := lined.given
  paired u s there := by
    by_cases here : u = t
    · exact here ▸ lined.paired t r reader
    · rw [setReader_other _ _ _ _ here] at there
      exact lined.paired u s there
  sound := lined.sound

theorem forwarded_setLine (p : Process) (t u : Token) (l : Line) :
    (p.setLine t l).forwarded u = if u = t then l.forwarded else p.forwarded u := by
  simp only [forwarded, Process.setLine, Function.update_apply]
  split <;> rfl

/-- What the writer thread does changes nothing that was put into the channel. -/
theorem Copied.setLine {l' : Line} (copied : p.Copied) (line : p.lines t = some l)
    (same : l'.accepted = l.accepted) : (p.setLine t l').Copied := by
  intro u
  rw [forwarded_setLine]
  split
  next here =>
    have copies := copied t
    rw [forwarded, line] at copies
    rw [Line.forwarded, same, here]
    exact copies
  next => exact copied u

theorem copies_fresh (t u : Token) (job : Job) : Section.copies u ⟨t, job, []⟩ = [] := by
  cases job <;> rfl

theorem forwarded_push (l : Line) (published : Bool) (pkt : Bytes) :
    (l.push published pkt).forwarded = l.forwarded ++ if published then [pkt] else [] := by
  cases published <;> simp [Line.push, Line.forwarded]

/-- One more attempt of an open publish. -/
theorem copies_attempt (u t : Token) (topic : Str) (payload : Bytes)
    (attempts : List (Subscription × TrySend)) (s : Subscription) (result : TrySend) :
    Section.copies u ⟨t, .publish topic payload, attempts ++ [(s, result)]⟩ =
      Section.copies u ⟨t, .publish topic payload, attempts⟩ ++
        if result.isOk && s.tx == u then [buildForward topic.bytes payload] else [] := by
  simp only [Section.copies, List.countP_append, List.countP_singleton]
  split
  · rw [List.replicate_add, List.replicate_one]
  · simp

/-- What is put into a channel is what the open section has more copies of. -/
theorem Copied.attempt (copied : p.Copied) (coherent : p.Coherent start)
    (reader : p.readers t = some r) {topic : Str} {pkt : Bytes} {s : Subscription}
    {left : List Subscription} {out : World.Fanout} {rest : List Action} {result : TrySend}
    (todo : r.todo = .retain topic pkt (s :: left) out :: rest)
    (tried : p.trySend s.tx pkt = (q, result)) : (q.note s result).Copied := by
  obtain ⟨⟨token, job, attempts⟩, locked, rfl⟩ := coherent.inside reader todo (by simp) (by simp)
  rcases coherent.holder reader locked rfl todo with ⟨same, -⟩ | ⟨crit, more, rfl, -, underway⟩
  · cases same
  obtain ⟨payload, seen, same, rfl, -⟩ := underway.retaining
  cases same
  intro u
  have copies : ((q.note s result).log ++ (q.note s result).lock.toList).flatMap (Section.copies u) =
      p.forwarded u ++ if result.isOk && s.tx == u then [buildForward topic.bytes payload] else [] := by
    rw [copied u, trySend_frame tried]
    simp only [note, locked, Option.map_some, Option.toList_some, List.flatMap_append,
      List.flatMap_singleton, copies_attempt, List.append_assoc]
  rw [copies]
  rcases trySend_cases tried with ⟨l, line, connected, room, rfl, rfl⟩ | ⟨failed, rfl⟩
  · have pushed : (Process.note (p.setLine s.tx (l.push true (buildForward topic.bytes payload))) s .ok).forwarded u =
        (p.setLine s.tx (l.push true (buildForward topic.bytes payload))).forwarded u := rfl
    rw [pushed, forwarded_setLine, forwarded_push]
    by_cases here : u = s.tx
    · simp [here, forwarded, line, TrySend.isOk]
    · simp [here, Ne.symm here, TrySend.isOk]
  · have silent : result.isOk = false := by
      cases result with
      | ok => exact absurd rfl failed
      | _ => rfl
    simp only [silent, Bool.false_and]
    exact (List.append_nil _).symm

theorem Lined.step (lined : p.Lined) (moves : p.Moves turn q) : q.Lined := by
  cases moves with
  | refused => exact ⟨fun t new => lined.given t (Nat.le_of_succ_le new), lined.paired, lined.sound⟩
  | accepted =>
    constructor
    · intro t new
      exact (setLine_other _ _ _ _ (Nat.ne_of_gt new)).trans (lined.given t (Nat.le_of_succ_le new))
    · intro t r there
      by_cases here : t = p.nextToken
      · exact ⟨.start, here ▸ setLine_self _ _ _⟩
      · rw [setLine_other _ _ _ _ here]
        exact lined.paired t r ((setReader_other _ _ _ _ here).symm.trans there)
    · intro t l there
      by_cases here : t = p.nextToken
      · rw [here, setLine_self] at there
        cases there
        exact .start
      · rw [setLine_other _ _ _ _ here] at there
        exact lined.sound t l there
  | receive bytes reader idle stage => exact lined.setReader reader
  | returns bytes reader idle stage => exact lined.setReader reader
  | @act t r a rest q reader todo acts =>
    cases acts with
    | @attempt topic pkt s left out q result wanted tried =>
      have tried' : (q.note s result).Lined := by
        rcases trySend_cases tried with ⟨l, line, connected, room, rfl, rfl⟩ | ⟨failed, rfl⟩
        · have pushed := lined.setLine line ((lined.sound _ l line).push room true pkt)
          exact ⟨pushed.given, pushed.paired, pushed.sound⟩
        · exact ⟨lined.given, lined.paired, lined.sound⟩
      refine tried'.setReader (r := r) ?_
      rw [trySend_frame tried]
      exact reader
    | send line connected room =>
      exact (lined.setLine line ((lined.sound _ _ line).push room false _)).setReader reader
    | @lock job free =>
      have entered : Lined { p with lock := some ⟨t, job, []⟩ } := ⟨lined.given, lined.paired, lined.sound⟩
      exact entered.setReader reader
    | @change a b effect =>
      have changed : Lined { p with broker := b } := ⟨lined.given, lined.paired, lined.sound⟩
      exact changed.setReader reader
    | unlock =>
      have left : Lined { p with lock := none, log := p.log ++ p.lock.toList } :=
        ⟨lined.given, lined.paired, lined.sound⟩
      exact left.setReader reader
    | _ => exact lined.setReader reader
  | take line waiting queued => exact lined.setLine line ((lined.sound _ _ line).take waiting queued)
  | wrote line writing => exact lined.setLine line ((lined.sound _ _ line).wrote writing)
  | broke line writing => exact lined.setLine line (lined.sound _ _ line).close
  | hangUp line => exact lined.setLine line (lined.sound _ _ line).close

theorem Copied.step (copied : p.Copied) (lined : p.Lined) (coherent : p.Coherent start)
    (moves : p.Moves turn q) : q.Copied := by
  cases moves with
  | accepted =>
    intro u
    have absent := copied p.nextToken
    rw [forwarded, lined.given _ le_rfl] at absent
    rw [forwarded_setLine]
    split
    next here =>
      rw [here]
      exact absent
    next => exact copied u
  | @act t r a rest q reader todo acts =>
    cases acts with
    | attempt wanted tried => exact copied.attempt coherent reader todo tried
    | @lock job free =>
      intro u
      have before := copied u
      rw [free] at before
      refine before.trans ?_
      simp only [Option.toList_none, List.append_nil, setReader, Option.toList_some, List.flatMap_append,
        List.flatMap_singleton, copies_fresh]
    | unlock =>
      intro u
      refine (copied u).trans ?_
      simp only [setReader, Option.toList_none, List.append_nil]
    | @send pkt l line connected room =>
      intro u
      have before := copied t
      rw [forwarded, line] at before
      have pushed : (Process.setReader (p.setLine t (l.push false pkt)) t { r with todo := rest }).forwarded u =
          (p.setLine t (l.push false pkt)).forwarded u := rfl
      rw [pushed, forwarded_setLine]
      split
      next here =>
        rw [forwarded_push, here]
        exact (List.append_nil _).trans before
      next => exact copied u
    | _ => exact copied
  | take line waiting queued => exact copied.setLine line rfl
  | wrote line writing => exact copied.setLine line rfl
  | broke line writing => exact copied.setLine line rfl
  | hangUp line => exact copied.setLine line rfl
  | _ => exact copied

theorem Reachable.lined (reached : p.Reachable) : p.Lined ∧ p.Copied := by
  refine Reachable.induct ?_ ?_ reached
  · refine ⟨⟨fun t _ => rfl, ?_, ?_⟩, fun t => rfl⟩
    · intro t r there
      cases there
    · intro t l there
      cases there
  · rintro p turn q reached ⟨lined, copied⟩ moves
    obtain ⟨⟨start, coherent⟩, -⟩ := reached.coherent
    exact ⟨lined.step moves, copied.step lined coherent moves⟩

/-- Every connection is written the packets of its channel in order, and what is forwarded to it
comes in the order of the critical sections, with a copy for each of its subscriptions that was
tried with success. So the messages of any two connections come in one order. -/
theorem in_order (p : Process) (reached : p.Reachable) (t : Token) (l : Line)
    (line : p.lines t = some l) :
    l.tx.queue.length ≤ SUB_QUEUE_CAP ∧ l.written <+: l.accepted.map Prod.snd ∧
      (l.writer ≠ .ended → l.accepted.map Prod.snd = l.written ++ l.writer.current ++ l.tx.queue) ∧
      l.forwarded = (p.log ++ p.lock.toList).flatMap (Section.copies t) := by
  obtain ⟨lined, copied⟩ := reached.lined
  have sound := lined.sound t l line
  refine ⟨sound.bounded, sound.written, sound.whole, ?_⟩
  have copies := copied t
  rw [forwarded, line] at copies
  exact copies

/-- A message is forwarded while its publisher still holds the mutex. -/
theorem in_order_forwarded : ∃ (p : Process) (l : Line), p.Reachable ∧ p.lock.isSome ∧ l.forwarded ≠ [] ∧
    l.forwarded = (p.log ++ p.lock.toList).flatMap (Section.copies 1) := by
  obtain ⟨p, reached, checked⟩ := exists_reachable
    (subscribed ++ [.read 2 [0x30, 4, 0, 1, 97, 120], .act 2, .act 2, .act 2])
    (fun p => p.lock.isSome && (p.lines 1).any fun l => !l.forwarded.isEmpty) (by decide +kernel)
  obtain ⟨locked, found⟩ := (Bool.and_eq_true _ _).mp checked
  obtain ⟨l, line, some_⟩ := (Option.any_eq_true _ _).mp found
  exact ⟨p, l, reached, locked, by simpa using some_, (in_order p reached 1 l line).2.2.2⟩

end Process
end MioBroker.Threaded

import MioBroker.Buffers

/-!
# From the socket to the handlers

What is read from a connection is framed chunk by chunk, and handled packet by packet while other
connections are served in between. Nothing of it is lost, nothing is handled twice, and the order is
that of the stream.
-/
namespace MioBroker

open Rust

/-- The bytes a read has brought. -/
def ReadResult.bytes : ReadResult → Bytes
  | .ok chunk => chunk
  | _ => []

namespace Op

/-- What an operation takes from the stream of a connection. -/
def taken (t : Token) : Op → Bytes
  | .receive k r => if k = t then r.bytes else []
  | _ => []

/-- The packet of a connection that an operation handles. -/
def handled (t : Token) : Op → List Packet
  | .packet k p => if k = t then [p] else []
  | _ => []

end Op

/-- The packets of a connection that are framed and not handled yet. -/
def Pc.unhandled (t : Token) : Pc → List Packet
  | .packets k todo _ _ _ => if k = t then todo else []
  | _ => []

/-- A read frames what it has brought behind what was left, or the connection fails. -/
theorem Broker.receive_framed {b b' : Broker} {t : Token} {r : ReadResult} {out : Outcome} {c d : Client}
    (found : b.clients.get? t = some c) (settled : Settled c.readBuf)
    (done : b.receive t r = .ok (b', out)) (after : b'.clients.get? t = some d) :
    out = .error () ∨ (frame (c.readBuf ++ r.bytes)).bad = none ∧
      (frame (c.readBuf ++ r.bytes)).rest = d.readBuf ∧ out = .ok (frame (c.readBuf ++ r.bytes)).pkts := by
  rcases receive_cases found done after with ⟨rfl, ⟨rfl, rfl⟩ | rfl⟩ | ⟨chunk, rfl, ⟨rfl, -⟩ |
    ⟨-, fine, left, rfl⟩⟩
  · refine .inr ?_
    have nothing : d.readBuf ++ ReadResult.wouldBlock.bytes = d.readBuf := List.append_nil _
    rw [nothing, settled.framed]
    exact ⟨rfl, rfl, rfl⟩
  · exact .inl rfl
  · exact .inl rfl
  · exact .inr ⟨fine, left.symm, rfl⟩

namespace Loop

variable {s s' : Loop} {io : Io} {t : Token}

/-- Only a read and a packet of the connection move its packets. -/
theorem unhandled_pcAfter (formed : s.pc.Formed) (b : Broker) (out : Outcome)
    (unread : ∀ r, s.op io ≠ .receive t r) (unheard : ∀ p, s.op io ≠ .packet t p) :
    (s.pcAfter io b out).unhandled t = s.pc.unhandled t := by
  cases io with
  | tick dt fault => rfl
  | go os =>
    -- A batch of another connection.
    have other : ∀ k next failed, k ≠ t → failed.unhandled t = [] →
        (afterReceive k next failed out).unhandled t = [] := by
      intro k next failed apart none_failed
      cases out with
      | ok pkts => exact if_neg apart
      | error _ => exact none_failed
    simp only [op] at unread unheard
    simp only [pcAfter]
    cases here : s.pc with
    | events todo =>
      cases todo with
      | nil => simp only [next, here, Pc.unhandled]
      | cons e todo =>
        cases e with
        | listener =>
          simp only [next, here]
          split <;> rfl
        | client k readable writable =>
          cases readable with
          | false => simp [next, here, Pc.unhandled]
          | true =>
            simp only [next, here, if_true] at unread ⊢
            exact other k _ _ (fun same => unread os.read (by rw [same])) rfl
    | packets k todo n next' failed =>
      rw [here] at formed
      cases todo with
      | nil =>
        simp only [next, here, Pc.unhandled, ite_self]
        rcases formed with ⟨writable, rest, rfl, -⟩ | ⟨rest, scan, rfl, -⟩ <;> rfl
      | cons p todo =>
        simp only [next, here] at unheard ⊢
        have apart : k ≠ t := fun same => unheard p (by rw [same])
        rw [Pc.unhandled, if_neg apart]
        cases out with
        | ok _ => exact if_neg apart
        | error _ => rcases formed with ⟨writable, rest, -, rfl⟩ | ⟨rest, scan, -, rfl⟩ <;> rfl
    | close k next' =>
      rw [here] at formed
      simp only [next, here]
      rcases formed with ⟨rest, rfl⟩ | ⟨rest, scan, rfl⟩ | ⟨rest, scan, rfl⟩ <;> rfl
    | sweep todo scan =>
      cases todo with
      | nil => simp only [next, here, Pc.unhandled]
      | cons k todo =>
        simp only [next, here] at unread ⊢
        split
        next there =>
          rw [if_pos there] at unread
          exact other k _ _ (fun same => unread os.read (by rw [same])) rfl
        next => rfl
    | sysTopics scan =>
      simp only [next, here]
      split <;> rfl
    | flushPending todo scan => cases todo <;> simp only [next, here, Pc.unhandled]
    | flushForwards todo scan => cases todo <;> simp only [next, here, Pc.unhandled]
    | sysPublish todo scan => cases todo <;> simp only [next, here, Pc.unhandled]
    | reap todo scan => cases todo <;> simp only [next, here, Pc.unhandled]
    | retry todo scan =>
      cases todo with
      | nil => simp only [next, here, Pc.unhandled]
      | cons e todo =>
        simp only [next, here]
        cases out <;> rfl
    | giveUp todo => cases todo <;> simp only [next, here, Pc.unhandled]
    | _ => simp only [next, here, Pc.unhandled]

/-- How far a connection is with its stream: `waiting` was to be handled at first, `bytes` were read
since, and `handled` is done. -/
structure Abreast (s : Loop) (t : Token) (waiting : List Packet) (bytes : Bytes) (handled : List Packet)
    (c : Client) : Prop where
  fine : (frame bytes).bad = none
  rest : (frame bytes).rest = c.readBuf
  pkts : waiting ++ (frame bytes).pkts = handled ++ s.pc.unhandled t

theorem Abreast.step {waiting handled : List Packet} {bytes : Bytes} {c d : Client}
    (abreast : s.Abreast t waiting bytes handled c) (reached : s.Reachable)
    (found : s.broker.clients.get? t = some c) (stays : ∀ next, s.pc ≠ .close t next)
    (done : s.step io = .ok s') (after : s'.broker.clients.get? t = some d) :
    (∃ next, s'.pc = .close t next) ∨ s'.Abreast t waiting (bytes ++ (s.op io).taken t)
      (handled ++ (s.op io).handled t) d := by
  obtain ⟨b, out, ran, rfl⟩ := step_ok.mp done
  have healthy := reached.healthy
  have formed := reached.formed
  have given := reached.numbered t c found
  have grounds := s.op_grounds io
  have kept : (∀ r, s.op io ≠ .receive t r) → d.readBuf = c.readBuf := by
    intro unread
    refine Op.readBuf healthy ran given unread (fun e there => ?_) d after
    cases found.symm.trans there
    rfl
  by_cases reads : ∃ r, s.op io = .receive t r
  · obtain ⟨r, reads⟩ := reads
    have settled := (reached.buffered t c found).resolve_right fun late => late.1.elim stays
    rw [reads] at ran grounds
    rcases Broker.receive_framed found settled ran after with rfl | ⟨fine, rest, rfl⟩
    · exact .inl (closes_of_failed reads b)
    · refine .inr ?_
      have taken : (s.op io).taken t = r.bytes := by rw [reads]; exact if_pos rfl
      have handled : (s.op io).handled t = [] := by rw [reads]; rfl
      have idle : s.pc.unhandled t = [] := by
        rcases grounds with ⟨writable, todo, here⟩ | ⟨todo, scan, here, -⟩ <;>
        · rw [here]
          rfl
      have batch : (s.pcAfter io b (.ok (frame (c.readBuf ++ r.bytes)).pkts)).unhandled t =
          (frame (c.readBuf ++ r.bytes)).pkts := by
        cases io with
        | tick dt fault => cases reads
        | go os =>
          rcases grounds with ⟨writable, todo, here⟩ | ⟨todo, scan, here, there⟩
          · simp only [pcAfter, next, here, if_true]
            exact if_pos rfl
          · simp only [pcAfter, next, here, there, if_true]
            exact if_pos rfl
      have framed := frame_append bytes r.bytes abreast.fine
      have before := abreast.pkts
      rw [idle, List.append_nil] at before
      rw [abreast.rest] at framed
      rw [taken, handled, List.append_nil]
      refine ⟨by rw [framed]; exact fine, by rw [framed]; exact rest, ?_⟩
      rw [framed, ← List.append_assoc, before]
      exact congrArg _ batch.symm
  · have unread : ∀ r, s.op io ≠ .receive t r := fun r same => reads ⟨r, same⟩
    have taken : (s.op io).taken t = [] := by
      cases does : s.op io with
      | receive k r => exact if_neg fun same => unread r (by rw [does, same])
      | _ => rfl
    rw [taken, List.append_nil]
    by_cases hears : ∃ p, s.op io = .packet t p
    · obtain ⟨p, hears⟩ := hears
      rw [hears] at grounds
      obtain ⟨todo, n, next', failed, here⟩ := grounds
      have handled : (s.op io).handled t = [p] := by rw [hears]; exact if_pos rfl
      have waits : s.pc.unhandled t = p :: todo := by rw [here]; exact if_pos rfl
      rw [here] at formed
      cases io with
      | tick dt fault => cases hears
      | go os =>
        cases out with
        | ok pkts =>
          refine .inr ⟨abreast.fine, abreast.rest.trans (kept unread).symm, ?_⟩
          have batch : (s.pcAfter (.go os) b (.ok pkts)).unhandled t = todo := by
            simp only [pcAfter, next, here]
            exact if_pos rfl
          rw [abreast.pkts, waits, handled, List.append_assoc]
          exact congrArg (fun rest => _ ++ p :: rest) batch.symm
        | error _ =>
          refine .inl ?_
          simp only [pcAfter, next, here]
          rcases formed with ⟨writable, rest, -, rfl⟩ | ⟨rest, scan, -, rfl⟩ <;> exact ⟨_, rfl⟩
    · have unheard : ∀ p, s.op io ≠ .packet t p := fun p same => hears ⟨p, same⟩
      have handled : (s.op io).handled t = [] := by
        cases does : s.op io with
        | packet k p => exact if_neg fun same => unheard p (by rw [does, same])
        | _ => rfl
      refine .inr ⟨abreast.fine, abreast.rest.trans (kept unread).symm, ?_⟩
      rw [handled, List.append_nil, abreast.pkts]
      exact congrArg _ (unhandled_pcAfter formed b out unread unheard).symm

/-- A run from a reachable state, with a check of the two states. -/
theorem exists_stretch (before rest : List Io) (check : Loop → Loop → Bool)
    (passed : ((after before).any fun s =>
      (Machine.runChecked step admits s rest).any fun u => check s u) = true) :
    ∃ s u, s.Reachable ∧ s.AdmittedRun rest u ∧ check s u = true := by
  obtain ⟨s, done, checked⟩ := (Option.any_eq_true _ _).mp passed
  obtain ⟨u, run, checked⟩ := (Option.any_eq_true _ _).mp checked
  exact ⟨s, u, after_reachable done, Machine.runChecked_path _ _ _ _ _ run, checked⟩

/-- What is read from a connection reaches its handlers whole, once and in the order of the stream, however
it is cut and whatever is done in between, until the connection is about to be closed. -/
theorem nothing_lost (s : Loop) (reached : s.Reachable) (ios : List Io) (u : Loop) (run : s.AdmittedRun ios u)
    (t : Token) (c d : Client) (found : s.broker.clients.get? t = some c)
    (later : u.broker.clients.get? t = some d) (stays : ∀ next, u.pc ≠ .close t next) :
    ∃ pkts, frame (c.readBuf ++ (s.trace ios).flatMap (Op.taken t)) = ⟨pkts, d.readBuf, none⟩ ∧
      s.pc.unhandled t ++ pkts = (s.trace ios).flatMap (Op.handled t) ++ u.pc.unhandled t := by
  have abreast : t < u.broker.nextToken ∧ ∀ d, u.broker.clients.get? t = some d →
      (∃ next, u.pc = .close t next) ∨ u.Abreast t (s.pc.unhandled t)
        (c.readBuf ++ (s.trace ios).flatMap (Op.taken t)) ((s.trace ios).flatMap (Op.handled t)) d := by
    clear later stays d
    induction run with
    | nil =>
      refine ⟨reached.numbered t c found, fun d there => ?_⟩
      cases found.symm.trans there
      refine (reached.buffered t c found).symm.imp And.left fun settled => ?_
      have framed := settled.framed
      rw [trace, List.flatMap_nil, List.append_nil]
      exact ⟨by rw [framed], by rw [framed], by rw [framed, List.append_nil]; rfl⟩
    | @snoc ios v w io path admitted done ih =>
      obtain ⟨given, before⟩ := ih
      have reached' : v.Reachable := Machine.Reaches.path reached path
      obtain ⟨b, out, ran, same⟩ := step_ok.mp done
      refine ⟨?_, fun e after => ?_⟩
      · rw [same]
        exact Nat.lt_of_lt_of_le given ((v.op io).nextToken_le reached'.healthy ran)
      · obtain ⟨d, there⟩ : ∃ d, v.broker.clients.get? t = some d := by
          refine Option.ne_none_iff_exists'.mp fun gone => ?_
          rw [same] at after
          cases ((v.op io).absent reached'.healthy ran given gone).symm.trans after
        rw [trace_append path, trace_single, List.flatMap_append, List.flatMap_append,
          List.flatMap_singleton, List.flatMap_singleton, ← List.append_assoc]
        by_cases closing : ∃ next, v.pc = .close t next
        · -- A connection that is closed is gone after the next step of the loop.
          obtain ⟨next', here⟩ := closing
          cases io with
          | tick dt fault =>
            refine .inl ⟨next', ?_⟩
            rw [same]
            exact here
          | go os =>
            simp only [op, next, here] at ran
            obtain ⟨b', removed, dropped⟩ := Run.bind_ok.mp ran
            cases dropped
            rw [same] at after
            cases (Broker.removeClient_erases removed).symm.trans after
        · exact ((before d there).resolve_left closing).step reached' there
            (fun next here => closing ⟨next, here⟩) done after
  have both := (abreast.2 d later).resolve_left fun closing => closing.elim stays
  refine ⟨(frame (c.readBuf ++ (s.trace ios).flatMap (Op.taken t))).pkts, ?_, both.pkts⟩
  rw [← both.rest, ← both.fine]

/-- A CONNECT that arrives in two pieces. -/
theorem nothing_lost_cut : ∃ (s u : Loop) (c d : Client) (ios : List Io), s.Reachable ∧ s.AdmittedRun ios u ∧
    s.broker.clients.get? 1 = some c ∧ c.readBuf = [0x10, 13] ∧ u.broker.clients.get? 1 = some d ∧
    ∃ pkts, frame (c.readBuf ++ (s.trace ios).flatMap (Op.taken 1)) = ⟨pkts, d.readBuf, none⟩ ∧
      s.pc.unhandled 1 ++ pkts = (s.trace ios).flatMap (Op.handled 1) ++ u.pc.unhandled 1 := by
  obtain ⟨s, u, reached, run, checked⟩ := exists_stretch
    ([Io.listen, .connection] ++ List.replicate 3 Io.quiet ++ [Io.read [0x10, 13]] ++ List.replicate 11 Io.quiet)
    ([Io.read ((connectBytes 2 97).drop 2)] ++ List.replicate 10 Io.quiet)
    (fun s u => u.idles && ((s.broker.clients.get? 1).any fun c => c.readBuf == [0x10, 13]) &&
      u.broker.clients.contains 1) (by decide +kernel)
  obtain ⟨both, there⟩ := (Bool.and_eq_true _ _).mp checked
  obtain ⟨ended, started⟩ := (Bool.and_eq_true _ _).mp both
  obtain ⟨c, found, cut⟩ := (Option.any_eq_true _ _).mp started
  obtain ⟨d, later⟩ := (HashMap.contains_iff _ _).mp there
  have stays : ∀ next, u.pc ≠ .close 1 next := by
    rw [poll_of_idles ended]
    rintro next ⟨⟩
  exact ⟨s, u, c, d, _, reached, run, found, by simpa using cut, later,
    nothing_lost s reached _ u run 1 c d found later stays⟩

end Loop
end MioBroker

import MioBroker.BadLength
import MioBroker.Duties
import MioBroker.Encoding

/-!
# What the read buffers hold

The packet loop leaves less than one packet in a read buffer, unless it waits for the end of a length
that has none. So every buffer is bounded, and the flood guard only meets such a length.
-/
namespace MioBroker

open Rust

/-! ### Framing more of a stream -/

theorem decodeRem_append {n i mult rem r j : Nat} {b : Bytes} (more : Bytes)
    (read : decodeRem n b i mult rem = some (r, j)) : decodeRem n (b ++ more) i mult rem = some (r, j) := by
  induction b generalizing n i mult rem with
  | nil => cases n <;> cases read
  | cons x xs ih =>
    cases n with
    | zero => cases read
    | succ n =>
      simp only [List.cons_append, decodeRem] at read ⊢
      split
      next last =>
        rw [if_pos last] at read
        exact read
      next continues =>
        rw [if_neg continues] at read
        exact ih read

/-- The loop goes on where it stopped. -/
theorem frameLoop_append (fuel : Nat) (b more : Bytes) (pkts : List Packet) (enough : b.length ≤ fuel)
    (fine : (frameLoop fuel b pkts).bad = none) :
    frameLoop (b ++ more).length (b ++ more) pkts =
      frameLoop ((frameLoop fuel b pkts).rest ++ more).length ((frameLoop fuel b pkts).rest ++ more)
        (frameLoop fuel b pkts).pkts := by
  induction fuel generalizing b pkts with
  | zero => rfl
  | succ fuel ih =>
    cases b with
    | nil => rfl
    | cons header b =>
      cases read : decodeRem 4 b 1 1 0 with
      | none => simp only [frameLoop, read]
      | some found =>
        obtain ⟨rem, i⟩ := found
        simp only [frameLoop, read] at fine ⊢
        split at fine
        · cases fine
        next small =>
          rw [if_neg small]
          split at fine
          next short => rw [if_pos short]
          next whole =>
            rw [if_neg whole]
            have within : i + 1 + rem ≤ (header :: b).length := Nat.not_lt.mp whole
            have longer : ¬((header :: b) ++ more).length < i + 1 + rem := by
              rw [List.length_append]
              omega
            have body : (((header :: b) ++ more).drop (i + 1)).take rem = ((header :: b).drop (i + 1)).take rem := by
              rw [List.drop_append_of_le_length (by omega), List.take_append_of_le_length]
              rw [List.length_drop]
              omega
            have left : ((header :: b) ++ more).drop (i + 1 + rem) = (header :: b).drop (i + 1 + rem) ++ more :=
              List.drop_append_of_le_length within
            have less : ((header :: b).drop (i + 1 + rem)).length ≤ fuel := by
              rw [List.length_cons] at enough
              rw [List.length_drop, List.length_cons]
              omega
            rw [← ih _ _ less fine, List.cons_append, List.length_cons, frameLoop]
            simp only [decodeRem_append more read]
            rw [← List.cons_append, if_neg small, if_neg longer, body, left]
            refine frameLoop_fuel _ _ _ _ ?_ le_rfl
            rw [List.length_append, List.length_append, List.length_drop, List.length_cons]
            omega

/-- What is framed later is framed behind what was framed before. -/
theorem frame_append (b more : Bytes) (fine : (frame b).bad = none) :
    frame (b ++ more) = ⟨(frame b).pkts ++ (frame ((frame b).rest ++ more)).pkts,
      (frame ((frame b).rest ++ more)).rest, (frame ((frame b).rest ++ more)).bad⟩ := by
  rw [frame, frameLoop_append b.length b more [] le_rfl fine, frameLoop_found]
  rfl

/-- Nothing more can be framed in what is left. -/
theorem frame_rest {b : Bytes} (fine : (frame b).bad = none) :
    frame (frame b).rest = ⟨[], (frame b).rest, none⟩ := by
  have again := frame_append b [] fine
  rw [List.append_nil, List.append_nil] at again
  have pkts : (frame (frame b).rest).pkts = [] := by
    have same := congrArg Framed.pkts again
    exact List.append_right_eq_self.mp same.symm
  have rest : (frame (frame b).rest).rest = (frame b).rest := (congrArg Framed.rest again).symm
  have bad : (frame (frame b).rest).bad = none := (congrArg Framed.bad again).symm.trans fine
  cases same : frame (frame b).rest with
  | mk p r q =>
    rw [same] at pkts rest bad
    cases pkts
    cases rest
    cases bad
    rfl

/-! ### What is left -/

/-- Behind the header byte stand four length bytes that all announce another one. -/
def Unended (buf : Bytes) : Prop :=
  ∃ header digits rest, buf = header :: (digits ++ rest) ∧ digits.length = 4 ∧
    ∀ x ∈ digits, 128 ≤ x.toNat

/-- A length of four bytes can be read, or more of them is to come, or it has no end. -/
theorem decodeRem_cases (b : Bytes) :
    (∃ rem i, decodeRem 4 b 1 1 0 = some (rem, i) ∧ i ≤ 4) ∨
      decodeRem 4 b 1 1 0 = none ∧ (b.length < 4 ∨
        ∃ digits rest, b = digits ++ rest ∧ digits.length = 4 ∧ ∀ x ∈ digits, 128 ≤ x.toNat) := by
  by_cases ends : ∃ x ∈ b.take 4, x.toNat < 128
  · rcases terminated_front b with endless | ⟨digits, rest, rfl, terminated⟩
    · obtain ⟨x, member, small⟩ := ends
      exact absurd small (Nat.not_lt.mpr (endless x (List.mem_of_mem_take member)))
    · have short := (terminated.take_iff rest 4).mp ends
      refine .inl ⟨_, _, decodeRem_terminated terminated 4 rest 1 1 0 short, ?_⟩
      omega
  · have continued : ∀ x ∈ b.take 4, 128 ≤ x.toNat := by
      intro x member
      exact Nat.not_lt.mp fun small => ends ⟨x, member, small⟩
    refine .inr ⟨decodeRem_continued 4 continued 1 1 0, ?_⟩
    by_cases short : b.length < 4
    · exact .inl short
    · exact .inr ⟨b.take 4, b.drop 4, (List.take_append_drop 4 b).symm,
        by rw [List.length_take]; omega, continued⟩

/-- What the packet loop leaves is the end of what it was given; unless it refuses a length, that is
less than a packet, or starts with a length without end. -/
theorem frameLoop_leaves (fuel : Nat) (b : Bytes) (pkts : List Packet) (enough : b.length ≤ fuel) :
    (frameLoop fuel b pkts).rest <:+ b ∧ ((frameLoop fuel b pkts).bad = none →
      (frameLoop fuel b pkts).rest.length < 5 + MAX_PACKET ∨ Unended (frameLoop fuel b pkts).rest) := by
  induction fuel generalizing b pkts with
  | zero =>
    cases List.eq_nil_of_length_eq_zero (Nat.le_zero.mp enough)
    exact ⟨List.suffix_rfl, fun _ => .inl (by simp [frameLoop, MAX_PACKET])⟩
  | succ fuel ih =>
    cases b with
    | nil => exact ⟨List.suffix_rfl, fun _ => .inl (by simp [frameLoop, MAX_PACKET])⟩
    | cons header b =>
      rcases decodeRem_cases b with ⟨rem, i, read, four⟩ | ⟨unread, waits⟩
      · simp only [frameLoop, read]
        split
        · exact ⟨List.suffix_rfl, fun fine => by cases fine⟩
        next within =>
          split
          next short =>
            refine ⟨List.suffix_rfl, fun _ => .inl ?_⟩
            simp only
            omega
          next whole =>
            have less : ((header :: b).drop (i + 1 + rem)).length ≤ fuel := by
              rw [List.length_drop]
              rw [List.length_cons] at enough ⊢
              omega
            obtain ⟨suffix, left⟩ := ih _ (pkts ++ [⟨header >>> 4, header &&& 0x0f,
              ((header :: b).drop (i + 1)).take rem⟩]) less
            exact ⟨suffix.trans (List.drop_suffix _ _), left⟩
      · rw [frameLoop_unread unread]
        refine ⟨List.suffix_rfl, fun _ => ?_⟩
        rcases waits with short | ⟨digits, rest, rfl, four, continued⟩
        · refine .inl ?_
          simp only [List.length_cons]
          omega
        · exact .inr ⟨header, digits, rest, rfl, four, continued⟩

/-- What stands in a read buffer between two reads. -/
structure Settled (buf : Bytes) : Prop where
  bounded : buf.length ≤ READ_CAP
  unfinished : buf.length < 5 + MAX_PACKET ∨ Unended buf
  /-- no packet of it is complete -/
  framed : frame buf = ⟨[], buf, none⟩

theorem Settled.nil : Settled [] := ⟨by decide, .inl (by decide), rfl⟩

theorem Settled.frame {buf : Bytes} (bounded : buf.length ≤ READ_CAP) (fine : (frame buf).bad = none) :
    Settled (frame buf).rest := by
  obtain ⟨suffix, left⟩ := frameLoop_leaves buf.length buf [] le_rfl
  exact ⟨Nat.le_trans suffix.length_le bounded, left fine, frame_rest fine⟩

theorem Client.readBuf_refreshKeepalive (c : Client) (now : Instant) :
    (c.refreshKeepalive now).readBuf = c.readBuf := by
  simp only [refreshKeepalive]
  split <;> rfl

/-- What a read does to the buffer of its connection, and what it tells the loop. -/
theorem Broker.receive_cases {b b' : Broker} {t : Token} {r : ReadResult} {out : Outcome} {c d : Client}
    (found : b.clients.get? t = some c) (done : b.receive t r = .ok (b', out))
    (after : b'.clients.get? t = some d) :
    d = c ∧ (r = .wouldBlock ∧ out = .ok [] ∨ out = .error ()) ∨
      ∃ chunk, r = .ok chunk ∧ (out = .error () ∧ d.readBuf <:+ c.readBuf ++ chunk ∨
        (c.readBuf ++ chunk).length ≤ READ_CAP ∧ (frame (c.readBuf ++ chunk)).bad = none ∧
          d.readBuf = (frame (c.readBuf ++ chunk)).rest ∧ out = .ok (frame (c.readBuf ++ chunk)).pkts) := by
  obtain ⟨⟨e, data⟩, first, done⟩ := Run.bind_ok.mp done
  simp only [readChunk, found, Run.unwrap_some, Run.ok_bind] at first
  cases r with
  | wouldBlock =>
    cases first
    cases done
    cases found.symm.trans after
    exact .inl ⟨rfl, .inl ⟨rfl, rfl⟩⟩
  | err =>
    cases first
    cases done
    cases found.symm.trans after
    exact .inl ⟨rfl, .inr rfl⟩
  | ok chunk =>
    cases chunk with
    | nil =>
      cases first
      cases done
      cases found.symm.trans after
      exact .inl ⟨rfl, .inr rfl⟩
    | cons x xs =>
      refine .inr ⟨x :: xs, rfl, ?_⟩
      by_cases flooded : (c.readBuf ++ x :: xs).length > READ_CAP
      · simp only [if_pos flooded, Run.pure_eq] at first
        cases first
        cases done
        rw [HashMap.get?_insert_self] at after
        cases after
        exact .inl ⟨rfl, List.suffix_rfl⟩
      · simp only [if_neg flooded, Run.pure_eq] at first
        cases first
        obtain ⟨⟨f, batch⟩, second, done⟩ := Run.bind_ok.mp done
        simp only [beginBatch, HashMap.get?_insert_self, Run.unwrap_some, Run.ok_bind] at second
        split at second
        next empty => simp at empty
        next =>
        split at second
        next refused =>
          cases second
          cases done
          rw [HashMap.get?_insert_self] at after
          cases after
          exact .inl ⟨rfl, (frameLoop_leaves _ (c.readBuf ++ x :: xs) [] le_rfl).1⟩
        next fine =>
          cases second
          cases done
          rw [HashMap.get?_insert_self] at after
          cases after
          exact .inr ⟨Nat.not_lt.mp flooded, fine, Client.readBuf_refreshKeepalive _ _, rfl⟩

/-- A read leaves the buffer settled, or ends the connection. -/
theorem Broker.receive_settled {b b' : Broker} {t : Token} {r : ReadResult} {out : Outcome} {c : Client}
    (found : b.clients.get? t = some c) (settled : Settled c.readBuf)
    (small : ∀ chunk, r = .ok chunk → chunk.length ≤ 65536) (done : b.receive t r = .ok (b', out)) :
    ∀ d, b'.clients.get? t = some d → Settled d.readBuf ∨
      out = .error () ∧ d.readBuf.length ≤ READ_CAP + 65536 := by
  intro d after
  rcases receive_cases found done after with ⟨rfl, -⟩ | ⟨chunk, given, ⟨failed, suffix⟩ |
    ⟨bounded, fine, left, -⟩⟩
  · exact .inl settled
  · refine .inr ⟨failed, Nat.le_trans suffix.length_le ?_⟩
    rw [List.length_append]
    exact Nat.add_le_add settled.bounded (small _ given)
  · rw [left]
    exact .inl (.frame bounded fine)

theorem Op.keeps_settled {op : Op} {b b' : Broker} {out : Outcome} {t : Token} (healthy : b.Healthy)
    (done : op.run b = .ok (b', out)) (unread : ∀ r, op ≠ .receive t r)
    (start : ∀ c, b.clients.get? t = some c → Settled c.readBuf) :
    ∀ d, b'.clients.get? t = some d → Settled d.readBuf := by
  refine (op.acts healthy done).keeps healthy
    (fun s => ∀ d, s.clients.get? t = some d → Settled d.readBuf) ?_ start
  intro s a s' healthy settled ok next d found
  rcases Act.survivor healthy next found with ⟨h₁, h₂, -, -, rfl⟩ | ⟨c, before, ⟨ch, rfl, rfl⟩ | fed⟩
  · exact .nil
  · have same : (ch.apply s.now c).readBuf = c.readBuf := by
      refine Change.readBuf s.now c fun buf touched => ?_
      subst touched
      -- Only a read of this connection fills its buffer.
      rcases Op.permits_change ok.1 with ⟨p, rfl, changes⟩ | ⟨r, rfl, -⟩ |
        ⟨_, -, same | ⟨_, same⟩⟩ | ⟨-, same⟩ | ⟨_, _, _, -, same⟩
      · exact changes.elim
      · exact unread r rfl
      all_goals cases same
    rw [same]
    exact settled c before
  · refine fed.invariant (fun c => Settled c.readBuf) ?_ (settled c before)
    intro c d topic payload qos retain _ kept queued
    rw [(Client.offered_of_offer c d s.now topic payload qos retain queued).frame]
    exact kept

/-- An operation of the loop has its answers from the operating system; the clock is not its own. -/
def Op.Given (os : Os) : Op → Prop
  | .tick _ _ => False
  | .accept h₁ h₂ => os.accept = some (h₁, h₂)
  | .receive _ r => r = os.read
  | .flush _ ws => ws = os.writes
  | _ => True

namespace Loop

theorem op_given (s : Loop) (os : Os) : (s.op (.go os)).Given os := by
  have guarded : ∀ (there : Bool) (op : Op), op.Given os → (if there then op else .idle).Given os := by
    intro there op given
    cases there
    · trivial
    · exact given
  simp only [op]
  cases here : s.pc with
  | events todo =>
    cases todo with
    | nil => simp only [next, here, Op.Given]
    | cons e todo =>
      cases e with
      | listener =>
        simp only [next, here]
        cases answer : os.accept with
        | none => trivial
        | some states => exact answer
      | client t readable writable => cases readable <;> simp [next, here, Op.Given]
  | writable t writable todo =>
    simp only [next, here]
    refine guarded writable _ ?_
    split
    · split
      · rfl
      · trivial
    · trivial
  | flushPending todo scan =>
    cases todo with
    | nil => simp only [next, here, Op.Given]
    | cons t todo =>
      simp only [next, here]
      exact guarded _ _ rfl
  | sweep todo scan =>
    cases todo with
    | nil => simp only [next, here, Op.Given]
    | cons t todo =>
      simp only [next, here]
      split
      · rfl
      · trivial
  | flushForwards todo scan =>
    cases todo with
    | nil => simp only [next, here, Op.Given]
    | cons t todo =>
      simp only [next, here]
      exact guarded _ _ rfl
  | giveUp todo =>
    cases todo with
    | nil => simp only [next, here, Op.Given]
    | cons e todo =>
      simp only [next, here]
      exact guarded _ _ trivial
  | save =>
    simp only [next, here]
    exact guarded _ _ trivial
  | packets t todo n next' failed => cases todo <;> simp only [next, here, Op.Given]
  | sysPublish todo scan => cases todo <;> simp only [next, here, Op.Given]
  | reap todo scan => cases todo <;> simp only [next, here, Op.Given]
  | retry todo scan => cases todo <;> simp only [next, here, Op.Given]
  | _ => simp only [next, here, Op.Given]

/-- Every buffer is settled, but for one of a connection that is about to be closed. -/
def Buffered (s : Loop) : Prop :=
  ∀ t c, s.broker.clients.get? t = some c → Settled c.readBuf ∨
    (∃ next, s.pc = .close t next) ∧ c.readBuf.length ≤ READ_CAP + 65536

variable {s s' : Loop} {io : Io}

theorem admitted_chunk {os : Os} {t : Token} {chunk : Bytes} (admitted : s.admits (.go os) = true)
    (reads : s.op (.go os) = .receive t (.ok chunk)) : chunk.length ≤ 65536 := by
  have given : os.read = .ok chunk := by
    have answer := s.op_given os
    rw [reads] at answer
    exact answer.symm
  simp only [admits, given, Bool.and_eq_true, decide_eq_true_eq] at admitted
  exact admitted.2

/-- A failed read leads to the end of its connection. -/
theorem closes_of_failed {t : Token} {r : ReadResult} (reads : s.op io = .receive t r) (b : Broker) :
    ∃ next, s.pcAfter io b (.error ()) = .close t next := by
  have grounds := s.op_grounds io
  rw [reads] at grounds
  cases io with
  | tick dt fault => cases reads
  | go os =>
    simp only [pcAfter]
    rcases grounds with ⟨writable, todo, here⟩ | ⟨todo, scan, here, there⟩
    · simp only [next, here, if_true]
      exact ⟨_, rfl⟩
    · simp only [next, here, there, if_true]
      exact ⟨_, rfl⟩

theorem Buffered.step (buffered : s.Buffered) (healthy : s.broker.Healthy) (admitted : s.admits io = true)
    (done : s.step io = .ok s') : s'.Buffered := by
  obtain ⟨b, out, ran, rfl⟩ := step_ok.mp done
  intro t d after
  by_cases closing : ∃ next, s.pc = .close t next
  · -- The one connection whose buffer may hold more is removed next.
    obtain ⟨next', here⟩ := closing
    cases io with
    | tick dt fault =>
      cases ran
      exact buffered t d after
    | go os =>
      simp only [op, next, here] at ran
      obtain ⟨b', removed, same⟩ := Run.bind_ok.mp ran
      cases same
      cases (Broker.removeClient_erases removed).symm.trans after
  · have settled : ∀ c, s.broker.clients.get? t = some c → Settled c.readBuf := fun c found =>
      (buffered t c found).resolve_right fun late => closing late.1
    by_cases reads : ∃ r, s.op io = .receive t r
    · obtain ⟨r, reads⟩ := reads
      rw [reads] at ran
      obtain ⟨c, found⟩ : ∃ c, s.broker.clients.get? t = some c := by
        obtain ⟨_, first, -⟩ := Run.bind_ok.mp ran
        obtain ⟨c, found, -⟩ := Run.bind_ok.mp first
        exact ⟨c, Run.unwrap_ok found⟩
      have small : ∀ chunk, r = .ok chunk → chunk.length ≤ 65536 := by
        rintro chunk rfl
        cases io with
        | tick dt fault => cases reads
        | go os => exact admitted_chunk admitted reads
      rcases Broker.receive_settled found (settled c found) small ran d after with fine | ⟨rfl, bounded⟩
      · exact .inl fine
      · exact .inr ⟨closes_of_failed reads b, bounded⟩
    · exact .inl ((s.op io).keeps_settled healthy ran (fun r same => reads ⟨r, same⟩) settled d after)

theorem Reachable.buffered (reached : s.Reachable) : s.Buffered := by
  refine (Machine.Reaches.invariant (fun s => s.broker.Healthy ∧ s.Buffered) ?_ ?_ reached).2
  · intro s start
    refine ⟨start.startup.healthy, fun t c found => ?_⟩
    cases (start.startup.unconnected t).symm.trans found
  · rintro s io s' ⟨healthy, buffered⟩ admitted done
    refine ⟨?_, buffered.step healthy admitted done⟩
    obtain ⟨b, out, ran, rfl⟩ := step_ok.mp done
    exact healthy.op _ ran

/-- No read buffer ever holds more than two packets and a chunk, and the flood guard refuses a chunk only
behind a length without end: whatever else is sent, in whatever pieces, stays below it. -/
theorem flood_guard (s : Loop) (reached : s.Reachable) (t : Token) (c : Client)
    (found : s.broker.clients.get? t = some c) :
    c.readBuf.length ≤ READ_CAP + 65536 ∧ ∀ os chunk, s.admits (.go os) = true →
      s.op (.go os) = .receive t (.ok chunk) → READ_CAP < (c.readBuf ++ chunk).length →
      Unended c.readBuf := by
  have buffered := reached.buffered t c found
  constructor
  · rcases buffered with settled | ⟨-, bounded⟩
    · exact Nat.le_trans settled.bounded (Nat.le_add_right _ _)
    · exact bounded
  · intro os chunk admitted reads flooded
    have settled : Settled c.readBuf := by
      refine buffered.resolve_right ?_
      rintro ⟨⟨next', here⟩, -⟩
      simp only [op, next, here] at reads
      cases reads
    refine settled.unfinished.resolve_left fun short => ?_
    have piece := admitted_chunk admitted reads
    have cap : READ_CAP = MAX_PACKET + 1048576 := rfl
    rw [List.length_append] at flooded
    omega

/-- The first byte of a packet waits for the others. -/
theorem flood_guard_started : ∃ (s : Loop) (c : Client), s.Reachable ∧ s.broker.clients.get? 1 = some c ∧
    c.readBuf = [0x10] ∧ c.readBuf.length ≤ READ_CAP + 65536 := by
  obtain ⟨s, done, checked⟩ := exists_after
    ([Io.listen, .connection] ++ List.replicate 3 Io.quiet ++ [Io.read [0x10], .quiet])
    (fun s => (s.broker.clients.get? 1).any fun c => c.readBuf == [0x10]) (by decide +kernel)
  obtain ⟨c, found, started⟩ := (Option.any_eq_true _ _).mp checked
  exact ⟨s, c, after_reachable done, found, by simpa using started,
    (flood_guard s (after_reachable done) 1 c found).1⟩

end Loop
end MioBroker

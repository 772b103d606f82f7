import MioBroker.Packet

/-!
# The packet parsers never read out of bounds
-/
namespace MioBroker

open Rust

theorem u16At_ok (body : Bytes) (i : Nat) (h : i + 1 < body.length) :
    ∃ v, u16At body i = .ok v := by
  refine ⟨u16FromBe body[i] body[i + 1], ?_⟩
  rw [u16At, Run.index_of_lt body i (by omega), Run.ok_bind, Run.index_of_lt body (i + 1) h,
    Run.ok_bind, Run.pure_eq]

/-- Both bytes of a number that was read are there. -/
theorem u16At_inside {body : Bytes} {i : Nat} {v : UInt16} (read : u16At body i = .ok v) :
    i + 1 < body.length := by
  obtain ⟨hi, -, rest⟩ := Run.bind_ok.mp read
  obtain ⟨lo, second, -⟩ := Run.bind_ok.mp rest
  by_contra outside
  simp [Run.index, List.getElem?_eq_none (Nat.not_lt.mp outside)] at second

theorem slice_ok (v : Bytes) (lo hi : Nat) (h : lo ≤ hi) (h' : hi ≤ v.length) :
    ∃ part, Run.slice v lo hi = .ok part := ⟨_, Run.slice_of_le v lo hi h h'⟩

theorem parseConnect_total (body : Bytes) : ∃ r, parseConnect body = .ok r := by
  simp only [parseConnect]
  split
  · exact ⟨none, rfl⟩
  next long =>
  obtain ⟨plen, plen_ok⟩ := u16At_ok body 0 (by omega)
  rw [plen_ok, Run.ok_bind]
  split
  · exact ⟨none, rfl⟩
  -- Each length is checked against the body before the field behind it is cut out.
  next name_fits =>
  obtain ⟨keepalive, keepalive_ok⟩ := u16At_ok body (4 + plen.toNat) (by omega)
  obtain ⟨clen, clen_ok⟩ := u16At_ok body (6 + plen.toNat) (by omega)
  rw [Run.index_of_lt body (3 + plen.toNat) (by omega), Run.ok_bind, keepalive_ok, Run.ok_bind,
    clen_ok, Run.ok_bind]
  split
  · exact ⟨none, rfl⟩
  next id_fits =>
  obtain ⟨cid, cid_ok⟩ := slice_ok body (6 + plen.toNat + 2) (6 + plen.toNat + 2 + clen.toNat)
    (by omega) (by omega)
  rw [cid_ok, Run.ok_bind]
  split
  · split
    · exact ⟨none, rfl⟩
    next =>
    obtain ⟨wlen, wlen_ok⟩ := u16At_ok body (6 + plen.toNat + 2 + clen.toNat) (by omega)
    rw [wlen_ok, Run.ok_bind]
    split
    · exact ⟨none, rfl⟩
    next topic_fits =>
    obtain ⟨wtopic, wtopic_ok⟩ := slice_ok body (6 + plen.toNat + 2 + clen.toNat + 2)
      (6 + plen.toNat + 2 + clen.toNat + 2 + wlen.toNat) (by omega) (by omega)
    rw [wtopic_ok, Run.ok_bind]
    split
    · exact ⟨none, rfl⟩
    next =>
    obtain ⟨mlen, mlen_ok⟩ :=
      u16At_ok body (6 + plen.toNat + 2 + clen.toNat + 2 + wlen.toNat) (by omega)
    rw [mlen_ok, Run.ok_bind]
    split
    · exact ⟨none, rfl⟩
    next message_fits =>
    obtain ⟨wmsg, wmsg_ok⟩ := slice_ok body (6 + plen.toNat + 2 + clen.toNat + 2 + wlen.toNat + 2)
      (6 + plen.toNat + 2 + clen.toNat + 2 + wlen.toNat + 2 + mlen.toNat) (by omega) (by omega)
    rw [wmsg_ok, Run.ok_bind]
    exact ⟨_, rfl⟩
  · exact ⟨_, rfl⟩

theorem parseSubscribeLoop_total (body : Bytes) (fuel pos : Nat) (out : List (Str × UInt8)) :
    ∃ r, parseSubscribeLoop body fuel pos out = .ok r := by
  induction fuel generalizing pos out with
  | zero => exact ⟨_, rfl⟩
  | succ fuel ih =>
    simp only [parseSubscribeLoop]
    split
    next more =>
      obtain ⟨tlen, tlen_ok⟩ := u16At_ok body pos (by omega)
      rw [tlen_ok, Run.ok_bind]
      split
      · exact ⟨none, rfl⟩
      -- The check leaves room for the filter and for the QoS byte behind it.
      next fits =>
        obtain ⟨filter, filter_ok⟩ := slice_ok body (pos + 2) (pos + 2 + tlen.toNat) (by omega)
          (by omega)
        rw [filter_ok, Run.ok_bind, Run.index_of_lt body (pos + 2 + tlen.toNat) (by omega),
          Run.ok_bind]
        exact ih _ _
    next => exact ⟨_, rfl⟩

theorem parseSubscribe_total (body : Bytes) : ∃ r, parseSubscribe body = .ok r := by
  simp only [parseSubscribe]
  split
  · exact ⟨none, rfl⟩
  next long =>
    obtain ⟨pid, pid_ok⟩ := u16At_ok body 0 (by omega)
    obtain ⟨out, out_ok⟩ := parseSubscribeLoop_total body body.length 2 []
    rw [pid_ok, Run.ok_bind, out_ok, Run.ok_bind]
    cases out <;> exact ⟨_, rfl⟩

theorem parseUnsubscribeLoop_total (body : Bytes) (fuel pos : Nat) (out : List Str) :
    ∃ r, parseUnsubscribeLoop body fuel pos out = .ok r := by
  induction fuel generalizing pos out with
  | zero => exact ⟨_, rfl⟩
  | succ fuel ih =>
    simp only [parseUnsubscribeLoop]
    split
    next more =>
      obtain ⟨tlen, tlen_ok⟩ := u16At_ok body pos (by omega)
      rw [tlen_ok, Run.ok_bind]
      split
      · exact ⟨none, rfl⟩
      next fits =>
        obtain ⟨filter, filter_ok⟩ := slice_ok body (pos + 2) (pos + 2 + tlen.toNat) (by omega)
          (by omega)
        rw [filter_ok, Run.ok_bind]
        exact ih _ _
    next => exact ⟨_, rfl⟩

theorem parseUnsubscribe_total (body : Bytes) : ∃ r, parseUnsubscribe body = .ok r := by
  simp only [parseUnsubscribe]
  split
  · exact ⟨none, rfl⟩
  next long =>
    obtain ⟨pid, pid_ok⟩ := u16At_ok body 0 (by omega)
    obtain ⟨out, out_ok⟩ := parseUnsubscribeLoop_total body body.length 2 []
    rw [pid_ok, Run.ok_bind, out_ok, Run.ok_bind]
    cases out <;> exact ⟨_, rfl⟩

theorem parsePublish_total (flags : UInt8) (body : Bytes) : ∃ r, parsePublish flags body = .ok r := by
  simp only [parsePublish]
  split
  · exact ⟨none, rfl⟩
  next long =>
  obtain ⟨tlen, tlen_ok⟩ := u16At_ok body 0 (by omega)
  rw [tlen_ok, Run.ok_bind]
  split
  · exact ⟨none, rfl⟩
  next topic_fits =>
  obtain ⟨topic, topic_ok⟩ := slice_ok body 2 (2 + tlen.toNat) (by omega) (by omega)
  rw [topic_ok, Run.ok_bind]
  split
  · split
    · exact ⟨none, rfl⟩
    next pid_fits =>
    obtain ⟨pid, pid_ok⟩ := u16At_ok body (2 + tlen.toNat) (by omega)
    obtain ⟨payload, payload_ok⟩ := slice_ok body (2 + tlen.toNat + 2) body.length (by omega)
      (Nat.le_refl _)
    rw [pid_ok, Run.ok_bind, payload_ok, Run.ok_bind]
    exact ⟨_, rfl⟩
  · obtain ⟨payload, payload_ok⟩ := slice_ok body (2 + tlen.toNat) body.length (by omega)
      (Nat.le_refl _)
    rw [payload_ok, Run.ok_bind]
    exact ⟨_, rfl⟩

theorem parsePidOnly_total (body : Bytes) : ∃ r, parsePidOnly body = .ok r := by
  simp only [parsePidOnly]
  split
  · exact ⟨none, rfl⟩
  next long =>
  obtain ⟨tlen, tlen_ok⟩ := u16At_ok body 0 (by omega)
  rw [tlen_ok, Run.ok_bind]
  split
  · exact ⟨none, rfl⟩
  next fits =>
  obtain ⟨pid, pid_ok⟩ := u16At_ok body (2 + tlen.toNat) (by omega)
  rw [pid_ok, Run.ok_bind]
  exact ⟨_, rfl⟩

/-- The fields of a parsed PUBLISH that come from its flags. -/
theorem parsePublish_fields {flags : UInt8} {body : Bytes} {q : PublishPacket}
    (parse : parsePublish flags body = .ok (some q)) :
    q.qos = publishQos flags ∧ q.retain = publishRetain flags ∧
      (q.pid.isSome = true ↔ publishQos flags > 0) := by
  simp only [parsePublish] at parse
  split at parse
  · cases parse
  · obtain ⟨tlen, -, parse⟩ := Run.bind_ok.mp parse
    split at parse
    · cases parse
    · obtain ⟨topic, -, parse⟩ := Run.bind_ok.mp parse
      split at parse
      next reliable =>
        split at parse
        · cases parse
        · obtain ⟨pid, -, parse⟩ := Run.bind_ok.mp parse
          obtain ⟨payload, -, parse⟩ := Run.bind_ok.mp parse
          cases parse
          exact ⟨rfl, rfl, by simpa using reliable⟩
      next unreliable =>
        obtain ⟨payload, -, parse⟩ := Run.bind_ok.mp parse
        cases parse
        exact ⟨rfl, rfl, by simpa using unreliable⟩

/-- Reading only the packet id agrees with parsing the whole reliable PUBLISH. -/
theorem parsePidOnly_eq {flags : UInt8} {body : Bytes} {r : Option PublishPacket}
    (reliable : publishQos flags > 0) (parse : parsePublish flags body = .ok r) :
    parsePidOnly body = .ok (r.bind PublishPacket.pid) := by
  simp only [parsePublish] at parse
  simp only [parsePidOnly]
  split at parse
  next short =>
    cases parse
    rw [if_pos (by omega)]
    rfl
  next long =>
  obtain ⟨tlen, tlen_ok, parse⟩ := Run.bind_ok.mp parse
  split at parse
  next =>
    cases parse
    split
    · rfl
    · rw [tlen_ok, Run.ok_bind, if_pos (by omega)]
      rfl
  next =>
  obtain ⟨topic, -, parse⟩ := Run.bind_ok.mp parse
  split at parse
  next =>
    cases parse
    split
    · rfl
    · rw [tlen_ok, Run.ok_bind, if_pos (by omega)]
      rfl
  next =>
  obtain ⟨pid, pid_ok, parse⟩ := Run.bind_ok.mp parse
  obtain ⟨payload, -, parse⟩ := Run.bind_ok.mp parse
  cases parse
  rw [if_neg (by omega), tlen_ok, Run.ok_bind, if_neg (by omega), pid_ok]
  rfl

end MioBroker

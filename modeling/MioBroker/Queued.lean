import MioBroker.Operations

/-!
# The reliable packets of a queue

What `queue_qos1` is called with, and how `remove_client` reads it back: the decoder takes the
remaining length to be one byte.
-/
namespace MioBroker

open Rust

/-- Every QoS value is two bits wide. -/
theorem qos_cases {qos : UInt8} (coded : qos ≤ 3) : qos = 0 ∨ qos = 1 ∨ qos = 2 ∨ qos = 3 := by
  have three : (3 : UInt8).toNat = 3 := rfl
  rw [UInt8.le_iff_toNat_le, three] at coded
  simp only [← UInt8.toNat_inj, UInt8.toNat_zero, UInt8.toNat_one, three,
    show (2 : UInt8).toNat = 2 from rfl]
  omega

/-- The QoS bits of a first byte. -/
theorem forwardFlags_qos {qos : UInt8} (coded : qos ≤ 3) (dup retain : Bool) :
    (forwardFlags qos dup retain &&& 0x06) >>> 1 = qos := by
  rcases qos_cases coded with rfl | rfl | rfl | rfl <;> cases dup <;> cases retain <;> decide

theorem forwardFlags_dup {qos : UInt8} (coded : qos ≤ 3) (dup retain : Bool) :
    forwardFlags qos dup retain ||| 0x08 = forwardFlags qos true retain := by
  rcases qos_cases coded with rfl | rfl | rfl | rfl <;> cases dup <;> cases retain <;> decide

/-- A PUBLISH forwarded with a packet id. -/
structure Forward where
  topic : Str
  payload : Bytes
  qos : UInt8
  pid : UInt16
  dup : Bool
  retain : Bool
  reliable : qos ≠ 0
  coded : qos ≤ 3
  deriving DecidableEq

namespace Forward

def encode (f : Forward) : Bytes :=
  buildForward f.topic.bytes f.payload f.qos (some f.pid) f.dup f.retain

def message (f : Forward) : Str × Bytes × UInt8 := (f.topic, f.payload, f.qos)

/-- The message with its packet id, whichever copy of it this is. -/
def original (f : Forward) : Forward := { f with dup := false }

def duplicate (f : Forward) : Forward := { f with dup := true }

/-- The remaining length fits one byte. -/
def Short (f : Forward) : Prop := 4 + f.topic.length + f.payload.length < 128

def body (f : Forward) : Bytes := forwardBody f.topic.bytes f.payload (some f.pid)

theorem length_body (f : Forward) : f.body.length = 4 + f.topic.length + f.payload.length := by
  simp only [body, forwardBody, List.length_append, length_u16ToBe, Str.length]
  omega

theorem encode_eq (f : Forward) :
    f.encode = forwardFlags f.qos f.dup f.retain :: encodeRem f.body.length ++ f.body := rfl

theorem encode_duplicate (f : Forward) (first : UInt8) (rest : Bytes)
    (same : f.encode = first :: rest) : f.duplicate.encode = (first ||| 0x08) :: rest := by
  rw [encode_eq, List.cons_append] at same
  obtain ⟨rfl, rfl⟩ := List.cons_eq_cons.mp same
  rw [forwardFlags_dup f.coded]
  rfl

end Forward

theorem encodeRem_short {n : Nat} (short : n < 128) : encodeRem n = [UInt8.ofNat n] := by
  have none_left : ¬n / 128 > 0 := by omega
  cases n with
  | zero => rfl
  | succ n => rw [encodeRem, encodeRemAux, if_neg none_left, Nat.mod_eq_of_lt short]

theorem length_encodeRemAux (fuel n : Nat) : 1 ≤ (encodeRemAux fuel n).length := by
  cases fuel with
  | zero => exact Nat.le_refl _
  | succ fuel =>
    rw [encodeRemAux]
    split
    · simp
    · exact Nat.le_refl _

theorem length_encodeRem_long {n : Nat} (long : 128 ≤ n) : 2 ≤ (encodeRem n).length := by
  cases n with
  | zero => omega
  | succ n =>
    have := length_encodeRemAux n ((n + 1) / 128)
    rw [encodeRem, encodeRemAux, if_pos (by omega), List.length_cons]
    omega

/-- What the decoder makes of a packet with a first byte `first` whose rest behind the second
byte is `body`. -/
def decodeBody (first : UInt8) (body : Bytes) : Run (Str × Bytes × UInt8) := do
  let tlen := (← u16At body 0).toNat
  let topic ← Run.slice body 2 (2 + tlen)
  let qos := (first &&& 0x06) >>> 1
  let off := if qos > 0 then 2 + tlen + 2 else 2 + tlen
  let payload ← Run.slice body off body.length
  pure (.fromUtf8Lossy topic, payload, qos)

theorem decodeQueued_cons (first second : UInt8) (body : Bytes) :
    Broker.decodeQueued (first :: second :: body) = decodeBody first body := by
  have whole : Run.slice (first :: second :: body) 2 (first :: second :: body).length = .ok body := by
    rw [Run.slice_of_le _ _ _ (by simp) (Nat.le_refl _), List.take_length]
    rfl
  have head : Run.index (first :: second :: body) 0 = .ok first := rfl
  rw [Broker.decodeQueued, whole, Run.ok_bind]
  simp only [head, Run.ok_bind]
  rfl

/-- What a successful decoding says about the layout. -/
theorem decodeBody_ok {first : UInt8} {body : Bytes} {m : Str × Bytes × UInt8}
    (done : decodeBody first body = .ok m) :
    ∃ tlen off, u16At body 0 = .ok tlen ∧ off ≤ 4 + tlen.toNat ∧ off ≤ body.length ∧
      2 + tlen.toNat ≤ body.length ∧
      m.1 = .fromUtf8Lossy ((body.take (2 + tlen.toNat)).drop 2) ∧ m.2.1 = body.drop off ∧
      m.2.2 = (first &&& 0x06) >>> 1 := by
  obtain ⟨tlen, tlen_ok, done⟩ := Run.bind_ok.mp done
  obtain ⟨topic, topic_ok, done⟩ := Run.bind_ok.mp done
  obtain ⟨payload, payload_ok, done⟩ := Run.bind_ok.mp done
  cases done
  simp only [Run.slice] at topic_ok payload_ok
  split at topic_ok
  next inside =>
    cases topic_ok
    generalize off_eq : (if (first &&& 0x06) >>> 1 > 0 then 2 + tlen.toNat + 2 else 2 + tlen.toNat) = off
      at payload_ok
    split at payload_ok
    -- A packet id is skipped where the first byte has a QoS.
    next tail =>
      cases payload_ok
      refine ⟨tlen, off, tlen_ok, ?_, tail.1, inside.2, rfl, by rw [List.take_length], rfl⟩
      rw [← off_eq]
      split <;> omega
    next => cases payload_ok
  next => cases topic_ok

namespace Forward

/-- A short packet is read back as it was built. -/
theorem decode_short (f : Forward) (short : f.Short) : Broker.decodeQueued f.encode = .ok f.message := by
  have fits : f.body.length < 128 := by rw [length_body]; exact short
  have small : f.topic.bytes.length < 128 := by
    have : f.topic.length = f.topic.bytes.length := rfl
    simp only [Short] at short
    omega
  have tlen : (UInt16.ofNat f.topic.bytes.length).toNat = f.topic.bytes.length := by
    rw [UInt16.toNat_ofNat']
    omega
  have reliable : ¬¬f.qos > 0 := by
    intro zero
    refine f.reliable (UInt8.toNat_inj.mp ?_)
    rw [gt_iff_lt, UInt8.lt_iff_toNat_lt] at zero
    exact Nat.eq_zero_of_not_pos zero
  rw [encode_eq, encodeRem_short fits, List.cons_append, List.singleton_append, decodeQueued_cons]
  generalize length : f.topic.bytes.length = n at tlen
  -- With one byte of remaining length the topic starts where the decoder looks for it.
  have layout : f.body = UInt8.ofNat ((UInt16.ofNat n).toNat / 256) ::
      UInt8.ofNat (UInt16.ofNat n).toNat :: (f.topic.bytes ++ (u16ToBe f.pid ++ f.payload)) := by
    simp [body, forwardBody, u16ToBe, length]
  have read : u16At f.body 0 = .ok (UInt16.ofNat n) := by
    rw [layout]
    simp only [u16At, Run.index, List.getElem?_cons_zero, List.getElem?_cons_succ, Nat.zero_add,
      Run.ok_bind, Run.pure_eq, u16FromBe_toBe]
  have total : f.body.length = 4 + n + f.payload.length := by
    rw [length_body, ← length]
    rfl
  have topic : Run.slice f.body 2 (2 + n) = .ok f.topic.bytes := by
    rw [Run.slice_of_le _ _ _ (by omega) (by omega), layout, Nat.add_comm 2 n]
    simp only [List.take_succ_cons, List.drop_succ_cons, List.drop_zero]
    rw [List.take_append_of_le_length (by omega), List.take_of_length_le (by omega)]
  have payload : Run.slice f.body (2 + n + 2) f.body.length = .ok f.payload := by
    rw [Run.slice_of_le _ _ _ (by omega) (Nat.le_refl _), List.take_length, layout,
      show 2 + n + 2 = n + 2 + 1 + 1 by omega]
    simp only [List.drop_succ_cons]
    rw [List.drop_append, List.drop_of_length_le (by omega), length, List.nil_append,
      show n + 2 - n = 2 by omega]
    rfl
  simp only [decodeBody, read, Run.ok_bind, tlen, topic, forwardFlags_qos f.coded,
    if_pos (not_not.mp reliable), payload, Str.fromUtf8Lossy_bytes]
  rfl

/-- A longer one is not: the decoder is off by the further bytes of the remaining length. -/
theorem decode_long (f : Forward) (long : ¬f.Short) (m : Str × Bytes × UInt8)
    (done : Broker.decodeQueued f.encode = .ok m) : (m.1, m.2.1) ≠ (f.topic, f.payload) := by
  intro same
  obtain ⟨topic, payload⟩ := Prod.mk.inj same
  have total := f.length_body
  have far : 128 ≤ f.body.length := by
    rw [total]
    exact Nat.le_of_not_lt long
  have digits := length_encodeRem_long far
  rw [encode_eq] at done
  generalize encodeRem f.body.length = rem at digits done
  match rem, digits with
  | r0 :: r1 :: rest, _ =>
    rw [List.cons_append, List.cons_append, decodeQueued_cons] at done
    obtain ⟨tlen, off, -, le, inside, fits, topic', payload', -⟩ := decodeBody_ok done
    -- With two bytes of remaining length or more, the decoder starts inside the length.
    have sizes : f.payload.length = (r1 :: rest ++ f.body).length - off := by
      rw [← payload, payload', List.length_drop]
    have lossy := Str.length_le_fromUtf8Lossy (((r1 :: rest ++ f.body).take (2 + tlen.toNat)).drop 2)
    rw [← topic', topic, List.length_drop, List.length_take] at lossy
    simp only [List.cons_append, List.length_cons, List.length_append] at sizes lossy inside fits
    omega

end Forward

/-- A reliable entry of a queue: a forwarded PUBLISH, or a PUBREL that is sent again. -/
inductive Queued
  | publish (f : Forward)
  | pubrel (pid : UInt16)
  deriving DecidableEq

namespace Queued

def encode : Queued → Bytes
  | .publish f => f.encode
  | .pubrel pid => [(PUBREL <<< 4) ||| 0x02 ||| 0x08, 0x02] ++ u16ToBe pid

/-- The application message it carries. -/
def message : Queued → Option (Str × Bytes × UInt8)
  | .publish f => some f.message
  | .pubrel _ => none

theorem filterMap_publish (fs : List Forward) :
    (fs.map publish).filterMap message = fs.map Forward.message := by
  rw [List.filterMap_map]
  exact congrFun List.filterMap_eq_map fs

/-- `x` is a retransmitted copy of the message of `y`. -/
def CopyOf (x y : Queued) : Prop :=
  match x, y with
  | .publish f, .publish g => f.dup = true ∧ g.original = f.original
  | _, _ => False

instance (x y : Queued) : Decidable (x.CopyOf y) := by
  unfold CopyOf
  split <;> infer_instance

/-- One copy of every message, in queue order, `seen` being the packets in front. -/
def distinct (seen : List Queued) : List Queued → List Queued
  | [] => []
  | x :: rest =>
    if ∃ y ∈ seen, x.CopyOf y then distinct (seen ++ [x]) rest else x :: distinct (seen ++ [x]) rest

/-- The messages a queue still owes: one for every message in it. -/
def owed (sent : List Queued) : List (Str × Bytes × UInt8) := (distinct [] sent).filterMap message

/-- A PUBLISH whose remaining length fits one byte. -/
def Short : Queued → Prop
  | .publish f => f.Short
  | .pubrel _ => False

instance (x : Queued) : Decidable x.Short :=
  match x with
  | .publish _ => inferInstanceAs (Decidable (_ < _))
  | .pubrel _ => .isFalse id

/-- Which entries are read back right. -/
theorem decode_iff (x : Queued) (m : Str × Bytes × UInt8) (carried : x.message = some m) :
    Broker.decodeQueued x.encode = .ok m ↔ x.Short := by
  cases x with
  | pubrel pid => cases carried
  | publish f =>
    cases carried
    refine ⟨fun done => Classical.by_contradiction fun long => ?_, f.decode_short⟩
    exact f.decode_long long _ done rfl

/-! ### One copy of every message -/

theorem message_of_short {x : Queued} (short : x.Short) : ∃ m, x.message = some m := by
  cases x with
  | publish f => exact ⟨f.message, rfl⟩
  | pubrel pid => exact short.elim

theorem length_distinct_le (seen sent : List Queued) : (distinct seen sent).length ≤ sent.length := by
  induction sent generalizing seen with
  | nil => exact Nat.le_refl _
  | cons x sent ih =>
    have := ih (seen ++ [x])
    rw [distinct]
    split <;> simp only [List.length_cons] <;> omega

/-- Nothing is left out exactly when nothing is a copy. -/
theorem distinct_eq_self (seen sent : List Queued) :
    (distinct seen sent).length = sent.length ↔
      (∀ x ∈ sent, ∀ y ∈ seen, ¬x.CopyOf y) ∧ sent.Pairwise fun y x => ¬x.CopyOf y := by
  induction sent generalizing seen with
  | nil => simp [distinct]
  | cons x sent ih =>
    rw [distinct]
    split
    -- A copy is dropped, and the list falls short from there on.
    next copy =>
      have le := length_distinct_le (seen ++ [x]) sent
      obtain ⟨y, member, same⟩ := copy
      constructor
      · intro full
        rw [List.length_cons] at full
        omega
      · intro none_copied
        exact absurd same (none_copied.1 x (by simp) y member)
    next fresh =>
      rw [List.length_cons, List.length_cons, Nat.add_right_cancel_iff, ih, List.pairwise_cons]
      constructor
      · rintro ⟨all, rest⟩
        refine ⟨fun z member y there => ?_, fun z member => all z member x (by simp), rest⟩
        rcases List.mem_cons.mp member with rfl | later
        · exact fun same => fresh ⟨y, there, same⟩
        · exact all z later y (by simp [there])
      · rintro ⟨all, own, rest⟩
        refine ⟨fun z member y there => ?_, rest⟩
        rcases List.mem_append.mp there with old | new
        · exact all z (by simp [member]) y old
        · rw [List.mem_singleton.mp new]
          exact own z member

theorem distinct_of_pairwise {sent : List Queued} (fresh : sent.Pairwise fun y x => ¬x.CopyOf y) :
    distinct [] sent = sent := by
  suffices ∀ seen, (∀ x ∈ sent, ∀ y ∈ seen, ¬x.CopyOf y) → distinct seen sent = sent from
    this [] (by simp)
  induction sent with
  | nil => exact fun _ _ => rfl
  | cons x sent ih =>
    intro seen apart
    obtain ⟨own, rest⟩ := List.pairwise_cons.mp fresh
    rw [distinct, if_neg fun ⟨y, member, same⟩ => apart x (by simp) y member same, ih rest]
    intro z member y there
    rcases List.mem_append.mp there with old | new
    · exact apart z (by simp [member]) y old
    · rw [List.mem_singleton.mp new]
      exact own z member

theorem length_owed_le (sent : List Queued) : (owed sent).length ≤ sent.length :=
  Nat.le_trans (List.length_filterMap_le _ _) (length_distinct_le [] sent)

theorem distinct_subset (seen sent : List Queued) : distinct seen sent ⊆ sent := by
  induction sent generalizing seen with
  | nil => exact List.Subset.refl _
  | cons x sent ih =>
    rw [distinct]
    split
    · exact List.subset_cons_of_subset _ (ih _)
    · exact List.cons_subset_cons _ (ih _)

/-- Every message of the queue is kept. -/
theorem mem_distinct {f : Forward} (seen sent : List Queued) (member : .publish f ∈ sent) :
    ∃ g, (.publish g ∈ seen ∨ .publish g ∈ distinct seen sent) ∧ g.original = f.original := by
  induction sent generalizing seen with
  | nil => cases member
  | cons x sent ih =>
    rw [distinct]
    rcases List.mem_cons.mp member with rfl | later
    · split
      next copy =>
        obtain ⟨y, there, same⟩ := copy
        cases y with
        | publish g => exact ⟨g, .inl there, same.2⟩
        | pubrel pid => exact same.elim
      next => exact ⟨f, .inr (by simp), rfl⟩
    · obtain ⟨g, there, same⟩ := ih (seen ++ [x]) later
      split
      next copy =>
        rcases there with there | there
        · rcases List.mem_append.mp there with old | new
          · exact ⟨g, .inl old, same⟩
          · -- `x` carries the message, and so does what it is a copy of
            obtain ⟨y, seen_y, copied⟩ := copy
            rw [List.mem_singleton] at new
            subst new
            cases y with
            | publish h => exact ⟨h, .inl seen_y, copied.2.trans same⟩
            | pubrel pid => exact copied.elim
        · exact ⟨g, .inr there, same⟩
      next =>
        refine ⟨g, ?_, same⟩
        rcases there with there | there
        · rcases List.mem_append.mp there with old | new
          · exact .inl old
          · exact .inr (List.mem_singleton.mp new ▸ List.mem_cons_self)
        · exact .inr (List.mem_cons_of_mem _ there)

theorem owed_eq_nil (sent : List Queued) : owed sent = [] ↔ ∀ x ∈ sent, x.message = none := by
  rw [owed, List.filterMap_eq_nil_iff]
  constructor
  · intro none_kept x member
    cases x with
    | pubrel pid => rfl
    | publish f =>
      obtain ⟨g, there, -⟩ := mem_distinct [] sent member
      rcases there with there | there
      · cases there
      · cases none_kept _ there
  · exact fun all x member => all x (distinct_subset _ _ member)

end Queued

/-- What is sent again for an entry of the window. -/
theorem retransmit_encode {pid : UInt16} {entry : InFlight} {f : Forward} (pkt : entry.pkt = f.encode) :
    entry.retransmit pid = if entry.qos2 && entry.awaitPubcomp then (Queued.pubrel pid).encode
      else (Queued.publish f.duplicate).encode := by
  by_cases released : (entry.qos2 && entry.awaitPubcomp) = true
  · rw [InFlight.retransmit, if_pos released, if_pos released]
    rfl
  · rw [InFlight.retransmit, if_neg released, if_neg released, pkt]
    exact (f.encode_duplicate _ _ rfl).symm

end MioBroker

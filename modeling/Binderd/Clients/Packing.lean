import Binderd.Clients.Handlers

/-! # The payload of a transaction

A transaction is packed without padding, written into a fresh message by a writer with padding, and
decoded without padding again. As long as one byte holds each of its numbers and lengths, what can
be read of the decoded transaction is what could be read of the one that was packed. A status, of
any value, comes back as it was sent: it travels as four bytes of data. -/

namespace Binderd.Clients.Packing

open Binderd.Lib.Bytes
open Binderd.Wire.Streams Binderd.Wire.Messages Binderd.Wire.Transactions
open Binderd.Clients.Handlers

/-- The data of a fresh message into which the packed transaction has been written. -/
def payloadOf (t : Transaction) : List UInt8 :=
  (({} : BinaryWriter).writeData (packTransaction t.tr t.mem)).bytes

/-- The numbers and lengths that one byte holds. -/
structure Short (tr : TransactionData) : Prop where
  binder : tr.binder < 256
  cookie : tr.cookie < 256
  code : tr.code < 256
  data : tr.data.size < 256
  objects : tr.objects.size < 256

instance (tr : TransactionData) : Decidable (Short tr) :=
  decidable_of_iff (tr.binder < 256 ∧ tr.cookie < 256 ∧ tr.code < 256 ∧ tr.data.size < 256 ∧
      tr.objects.size < 256)
    ⟨fun h => ⟨h.1, h.2.1, h.2.2.1, h.2.2.2.1, h.2.2.2.2⟩,
      fun h => ⟨h.binder, h.cookie, h.code, h.data, h.objects⟩⟩

theorem payloadOf_eq (t : Transaction) :
    ∃ pad, payloadOf t = packTransaction t.tr t.mem ++ pad :=
  ⟨_, by simp only [payloadOf, BinaryWriter.writeData, List.nil_append]; rfl⟩

theorem byteOf_of_load {l : List UInt8} {p n : ℕ} (h : load (ofList l) p 8 = n % 256 ^ 8)
    (hn : n < 256) : byteOf l p = n := by
  rw [Nat.mod_eq_of_lt (by omega)] at h
  have hlt : load (ofList l) p (7 + 1) < 256 := h.trans_lt hn
  exact (toNat_of_load_lt hlt).trans h

section Decoded

variable {t : Transaction} (hd : t.tr.data.size < 256) (ho : t.tr.numObjectOffsets * 8 < 256)

include hd ho

theorem packed_payloadOf : Packed t.tr t.mem (payloadOf t) := by
  obtain ⟨pad, hpad⟩ := payloadOf_eq t
  rw [hpad]
  exact packed_packTransaction t.tr t.mem pad hd ho

theorem fromMessage_payloadOf : fromMessage (payloadOf t) = .ok (decoded (payloadOf t)) :=
  fromMessage_of_complete (packed_payloadOf hd ho).complete

theorem contents_decoded_payloadOf (hb : t.tr.binder < 256) (hc : t.tr.cookie < 256)
    (hcode : t.tr.code < 256) :
    contents (decoded (payloadOf t)) (ofList (payloadOf t)) = contents t.tr t.mem := by
  have hp := packed_payloadOf hd ho
  have hflags : (decoded (payloadOf t)).isOneWay = t.tr.isOneWay ∧
      (decoded (payloadOf t)).hasStatus = t.tr.hasStatus := by
    obtain ⟨pad, hpad⟩ := payloadOf_eq t
    rw [hpad]
    exact decoded_flags_packTransaction t.tr t.mem pad
  have hbinder : (decoded (payloadOf t)).binder = t.tr.binder := by
    simp only [decoded]
    exact byteOf_of_load hp.binder hb
  have hcookie : (decoded (payloadOf t)).cookie = t.tr.cookie := by
    simp only [decoded]
    exact byteOf_of_load hp.cookie hc
  have hcode' : (decoded (payloadOf t)).code = t.tr.code := by
    rw [hp.code, Nat.mod_eq_of_lt hcode]
  have hnum : (decoded (payloadOf t)).numObjectOffsets = t.tr.numObjectOffsets := by
    rw [TransactionData.numObjectOffsets, hp.objects]
    exact Nat.mul_div_cancel _ (by omega)
  unfold contents
  rw [hbinder, hcookie, hcode', hflags.1, hflags.2, hnum, hp.data, hp.objects, hp.dataBytes,
    hp.offsetBytes]

end Decoded

/-! ### Statuses -/

theorem signed_of_mod {st : ℤ} (h1 : -2 ^ 31 ≤ st) (h2 : st < 2 ^ 31) :
    (if (st % 2 ^ 32).toNat < 2 ^ 31 then ((st % 2 ^ 32).toNat : ℤ)
      else ((st % 2 ^ 32).toNat : ℤ) - 2 ^ 32) = st := by
  split_ifs <;> omega

theorem getStatus_decoded {st : ℤ} (h1 : -2 ^ 31 ≤ st) (h2 : st < 2 ^ 31) :
    getStatus (decoded (payloadOf (transactionStatus st)))
      (ofList (payloadOf (transactionStatus st))) = some st := by
  have hp := packed_payloadOf (t := transactionStatus st) (show 4 < 256 by omega)
    (show 0 / 8 * 8 < 256 by omega)
  have hload : load (ofList (payloadOf (transactionStatus st))) 28 4 = (st % 2 ^ 32).toNat := by
    have hbytes : slice (ofList (payloadOf (transactionStatus st))) 28 4 =
        leBytes 4 (st % 2 ^ 32).toNat := by
      have hslice := slice_ofList_append [] (leBytes 4 (st % 2 ^ 32).toNat) []
      rw [List.append_nil, List.nil_append, length_leBytes] at hslice
      exact hp.dataBytes.trans hslice
    have h := load_slice (m := ofList (payloadOf (transactionStatus st))) (p := 28) (n := 4)
      (i := 0) (w := 4) le_rfl
    have hn := load_ofList_append [] [] 4 (st % 2 ^ 32).toNat
    rw [List.append_nil, List.nil_append, List.length_nil] at hn
    rw [← h, hbytes, hn]
    exact Nat.mod_eq_of_lt (by omega)
  simp only [getStatus, hp.data, hload, signed_of_mod h1 h2]
  rfl

/-- **The payload of a transaction is decoded as it was packed**, and so is any status. -/
theorem payload_round_trip :
    (∀ t : Transaction, Short t.tr → ∃ tr, fromMessage (payloadOf t) = .ok tr ∧
      contents tr (ofList (payloadOf t)) = contents t.tr t.mem) ∧
    ∀ st : ℤ, -2 ^ 31 ≤ st → st < 2 ^ 31 →
      ∃ tr, fromMessage (payloadOf (transactionStatus st)) = .ok tr ∧ tr.hasStatus = true ∧
        getStatus tr (ofList (payloadOf (transactionStatus st))) = some st := by
  refine ⟨fun t hs => ?_, fun st h1 h2 => ?_⟩
  · have ho : t.tr.numObjectOffsets * 8 < 256 :=
      (Nat.div_mul_le_self _ _).trans_lt hs.objects
    exact ⟨_, fromMessage_payloadOf hs.data ho,
      contents_decoded_payloadOf hs.data ho hs.binder hs.cookie hs.code⟩
  · have hd : (transactionStatus st).tr.data.size < 256 := show 4 < 256 by omega
    have ho : (transactionStatus st).tr.numObjectOffsets * 8 < 256 := show 0 / 8 * 8 < 256 by omega
    refine ⟨_, fromMessage_payloadOf hd ho, ?_, getStatus_decoded h1 h2⟩
    obtain ⟨pad, hpad⟩ := payloadOf_eq (transactionStatus st)
    rw [hpad]
    exact (decoded_flags_packTransaction _ _ pad).2

/-- Five bytes of data, which are followed by three bytes of padding, and one offset. -/
def oddTransaction : Transaction :=
  { tr := { binder := 1, cookie := 2, code := 3, isOneWay := true, data := ⟨0, 5⟩,
            objects := ⟨5, 8⟩ }
    mem := ofList ([1, 2, 3, 4, 5] ++ leBytes 8 0) }

theorem payload_round_trip_oddTransaction :
    (∃ tr, fromMessage (payloadOf oddTransaction) = .ok tr ∧
      contents tr (ofList (payloadOf oddTransaction)) =
        contents oddTransaction.tr oddTransaction.mem) ∧
    ∃ tr, fromMessage (payloadOf (transactionStatus (-2 ^ 31))) = .ok tr ∧ tr.hasStatus = true ∧
      getStatus tr (ofList (payloadOf (transactionStatus (-2 ^ 31)))) = some (-2 ^ 31) :=
  ⟨payload_round_trip.1 oddTransaction (by decide),
    payload_round_trip.2 (-2 ^ 31) le_rfl (by decide)⟩

end Binderd.Clients.Packing

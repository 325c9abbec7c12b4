import Binderd.Clients.Handlers

/-! # Addresses and ids

The cookie of a binder is the address of an object inside the client, and an id of the translator's
table outside of it.

On the way out every listed binder is to carry the id of its address (`IdsLeave`). The offsets are
read as one byte, so a transaction whose objects lie further than that leaves with addresses in it
(`ids_leave_iff`).

On the way in every listed binder is to carry an address of the table (`Guarded`). The loop stops at
an id that it does not know and at an invalid type, and what is left as it was is handed on all the
same (`addresses_handed_iff`). -/

namespace Binderd.Clients.Addresses

open Binderd.Lib.Bytes Binderd.Lib.Tables Binderd.Lib.Walks
open Binderd.Wire.Streams Binderd.Wire.Messages Binderd.Wire.Transactions
open Binderd.Clients.Translator Binderd.Clients.Handlers

/-- The object at `p` and its cookie, if it is a binder. -/
def binderAt (m : Mem) (p : ℕ) : Option (ℕ × ℕ) :=
  if objType m p = some .binder then some (p, objCookie m p) else none

/-- The binders that the transaction lists. -/
def listedBinders (tr : TransactionData) (m : Mem) : List (ℕ × ℕ) :=
  (listedPositions tr m).filterMap (binderAt m)

/-- The calls of `ProcessBinderObject`: the objects, and the cookies it finds in them. -/
def translations (d : Direction) (tr : TransactionData) (t : ObjectTranslator) (m : Mem) :
    List (ℕ × ℕ) :=
  (visitsArray (processObject d) tr.data.start tr.numObjectOffsets tr.objects.start t m).filterMap
    fun v => binderAt v.mem v.position

/-! ### On the way out -/

/-- If `ProcessTransaction` returns `OK`, every listed binder carries the id of the cookie it had,
and was translated once. -/
def IdsLeave (tr : TransactionData) (t : ObjectTranslator) (m : Mem) : Prop :=
  ∀ t' m', processTransaction .Out tr t m = some (.ok, t', m') →
    (∀ p ∈ listedPositions tr m, objType m p = some .binder →
      objType m' p = some .binder ∧
        t'.objects.lookup (objCookie m' p) = some (objCookie m p)) ∧
    translations .Out tr t m = listedBinders tr m

section Out

variable {tr : TransactionData} {t : ObjectTranslator} {m : Mem}

theorem binderAt_visit {d : Direction} {ps : List ℕ} (hap : Separate 24 ps)
    {v : Visit ObjectTranslator} (hv : v ∈ visits (processObject d) ps t m) :
    binderAt v.mem v.position = binderAt m v.position := by
  have hsame := visit_sameAt (processObject_local d) hap hv
  unfold binderAt
  rw [objType_congr hsame, objCookie_congr hsame]

/-- A pass that gets past all objects translates each binder once. -/
theorem filterMap_visits {d : Direction} {ps : List ℕ} (hap : Separate 24 ps)
    (hok : (walk (processObject d) ps t m).1 = none) :
    (visits (processObject d) ps t m).filterMap (fun v => binderAt v.mem v.position) =
      ps.filterMap (binderAt m) := by
  conv_rhs => rw [← map_position_visits hok, List.filterMap_map]
  refine List.filterMap_congr fun v hv => ?_
  rw [Function.comp_apply]
  exact binderAt_visit hap hv

theorem lt_of_translations {d : Direction} {o c : ℕ}
    (h : (tr.data.start + o, c) ∈ translations d tr t m) : o < 256 := by
  obtain ⟨v, hv, hb⟩ := List.mem_filterMap.mp h
  obtain ⟨b, hpos⟩ := position_of_visitsArray hv
  unfold binderAt at hb
  split_ifs at hb
  simp only [Option.some.injEq, Prod.mk.injEq] at hb
  have := b.toNat_lt
  omega

end Out

/-- **What leaves a client.** If all listed offsets are below `256`, no address leaves. If
`ProcessTransaction` returns `OK` and no address leaves, the binders lie below `256`. -/
theorem ids_leave_iff (tr : TransactionData) (t : ObjectTranslator) (m : Mem) (hr : t.Reachable)
    (hb : t.nextObjectId + tr.numObjectOffsets ≤ 2 ^ 64) (ht : TwoBuffers tr)
    (hw : WellPlaced tr m) :
    ((∀ o ∈ tr.listedOffsets m, o < 256) → IdsLeave tr t m) ∧
    ((∃ t' m', processTransaction .Out tr t m = some (.ok, t', m')) → IdsLeave tr t m →
      ∀ o ∈ tr.listedOffsets m, objType m (tr.data.start + o) = some .binder → o < 256) := by
  refine ⟨fun hlt t' m' hok => ?_, fun ⟨t', m', hok⟩ hids o ho hbinder => ?_⟩
  · obtain ⟨hvisits, hwalk⟩ := processObjects_eq ht hw hlt .Out t
    have hap := hw.separate_positions
    have hresult := (of_processTransaction hok).2
    rw [hwalk] at hresult
    have hnone := walk_status.mp (congrArg Prod.fst hresult).symm
    obtain rfl : t' = _ := congrArg (·.2.1) hresult
    obtain rfl : m' = _ := congrArg (·.2.2) hresult
    rw [translations, hvisits]
    refine ⟨fun p hp hbinder => ⟨?_, ?_⟩, filterMap_visits hap hnone⟩
    · rw [walk_type hap hp]
      exact hbinder
    · refine walk_out hap hr.numbered ?_ hnone hp hbinder
      rwa [length_listedPositions]
  · have hmem : (tr.data.start + o, objCookie m (tr.data.start + o)) ∈ listedBinders tr m :=
      List.mem_filterMap.mpr ⟨_, List.mem_map_of_mem ho, if_pos hbinder⟩
    rw [← (hids t' m' hok).2] at hmem
    exact lt_of_translations hmem

/-- A handle, and `n` bytes later a binder with the address `0x7f00`. -/
def spacedData (n : ℕ) : List UInt8 :=
  flatBinderObject .handle 0 3 0 ++ List.replicate n 0 ++ flatBinderObject .binder 0 1 0x7f00

theorem ids_leave_iff_spacedData :
    WellPlaced (parcel (spacedData 0) [0, 24]) (parcelMemory (spacedData 0) [0, 24]) ∧
      IdsLeave (parcel (spacedData 0) [0, 24]) .initial
        (parcelMemory (spacedData 0) [0, 24]) := by
  have hw : WellPlaced (parcel (spacedData 0) [0, 24]) (parcelMemory (spacedData 0) [0, 24]) :=
    ⟨by decide +kernel, by decide +kernel⟩
  have hb : ObjectTranslator.initial.nextObjectId +
      (parcel (spacedData 0) [0, 24]).numObjectOffsets ≤ 2 ^ 64 := by decide +kernel
  have ht : TwoBuffers (parcel (spacedData 0) [0, 24]) := .inr (by decide +kernel)
  exact ⟨hw, (ids_leave_iff (parcel (spacedData 0) [0, 24]) .initial
    (parcelMemory (spacedData 0) [0, 24]) .initial hb ht hw).1 (by decide +kernel)⟩

/-- The binder at the offset `256` keeps its address, although `ProcessTransaction` returns `OK`. -/
theorem address_leaves :
    TwoBuffers (parcel (spacedData 232) [0, 256]) ∧
      WellPlaced (parcel (spacedData 232) [0, 256]) (parcelMemory (spacedData 232) [0, 256]) ∧
      (∃ t' m', processTransaction .Out (parcel (spacedData 232) [0, 256]) .initial
          (parcelMemory (spacedData 232) [0, 256]) = some (.ok, t', m') ∧
        objCookie m' 256 = 0x7f00) ∧
      ¬ IdsLeave (parcel (spacedData 232) [0, 256]) .initial
        (parcelMemory (spacedData 232) [0, 256]) := by
  have hpass : (processTransaction .Out (parcel (spacedData 232) [0, 256]) .initial
      (parcelMemory (spacedData 232) [0, 256])).any (fun r => decide (r.1 = .ok ∧
        objCookie r.2.2 256 = 0x7f00 ∧ r.2.1.objects.lookup 0x7f00 = none)) = true := by
    decide +kernel
  obtain ⟨⟨status, t', m'⟩, hok, hcond⟩ := (Option.any_eq_true _ _).mp hpass
  obtain ⟨rfl, hcookie, hnone⟩ := of_decide_eq_true hcond
  refine ⟨.inr (by decide +kernel), ⟨by decide +kernel, by decide +kernel⟩,
    ⟨t', m', hok, hcookie⟩, fun hids => ?_⟩
  have hlookup := ((hids t' m' hok).1 256 (by decide +kernel) (by decide +kernel)).2
  rw [hcookie, hnone] at hlookup
  cases hlookup

/-! ### On the way in -/

/-- The offset of a binder that is listed and lies in the data. -/
def HasBinder (k : Contents) (o : ℕ) : Prop :=
  o ∈ (List.range (k.objects.length / 8)).map (fun i => load (ofList k.objects) (8 * i) 8) ∧
    o + 24 ≤ k.data.length ∧ objType (ofList k.data) o = some .binder

/-- The cookies of the binders are addresses of the table. -/
def CarriesAddresses (t : ObjectTranslator) (k : Contents) : Prop :=
  ∀ o, HasBinder k o → ∃ id, t.objects.lookup id = some (objCookie (ofList k.data) o)

/-- The cookies of the binders are ids of the table. -/
def CarriesIds (t : ObjectTranslator) (k : Contents) : Prop :=
  ∀ o, HasBinder k o → objCookie (ofList k.data) o ∈ t.objects

/-- **What is handed on carries addresses of the table**, and comes from ids of the table. -/
def Guarded (t : ObjectTranslator) (msg : Message) (beyond : List UInt8)
    (handed : Option Contents) : Prop :=
  ∀ k, handed = some k → CarriesAddresses t k ∧
    CarriesIds t (contents (decoded msg.data) (receivedMemory msg beyond))

/-- The listed objects lie inside the data and do not overlap, the binders among them carry ids of
the table, and those that the loop does not get to carry addresses of it all the same. -/
structure Safe (t : ObjectTranslator) (tr : TransactionData) (m : Mem) : Prop where
  wellPlaced : WellPlaced tr m
  known : ∀ p ∈ listedPositions tr m, objType m p = some .binder → objCookie m p ∈ t.objects
  reached : ∀ p ∈ listedPositions tr m, objType m p = some .binder →
    p ∈ passed t m (listedPositions tr m) ∨ ∃ id, t.objects.lookup id = some (objCookie m p)

/-- No offset names a binder, or the message is safe. -/
def Harmless (t : ObjectTranslator) (tr : TransactionData) (m : Mem) : Prop :=
  (∀ p ∈ tr.namedPositions m, objType m p ≠ some .binder) ∨ Safe t tr m

section In

variable {tr : TransactionData} {t : ObjectTranslator} {m m' : Mem}

/-- The object at an offset into the data, as it is read from the data. -/
theorem object_of_contents {o : ℕ} (h : o + 24 ≤ tr.data.size) :
    objType (ofList (contents tr m).data) o = objType m (tr.data.start + o) ∧
      objCookie (ofList (contents tr m).data) o = objCookie m (tr.data.start + o) := by
  unfold objType objCookie contents
  rw [load_slice (by omega), load_slice (by omega), Nat.add_assoc]
  exact ⟨rfl, rfl⟩

theorem offsets_of_contents (tr : TransactionData) (m : Mem) :
    (List.range ((contents tr m).objects.length / 8)).map
      (fun i => load (ofList (contents tr m).objects) (8 * i) 8) = tr.listedOffsets m := by
  unfold contents TransactionData.listedOffsets
  rw [length_slice, Nat.mul_div_cancel _ (by omega)]
  refine List.map_congr_left fun i hi => ?_
  rw [List.mem_range] at hi
  exact load_slice (by omega)

/-- The binders in the contents of a transaction, in another memory with the same offsets. -/
theorem hasBinder_iff (hw : WellPlaced tr m) (ho : tr.listedOffsets m' = tr.listedOffsets m)
    {o : ℕ} : HasBinder (contents tr m') o ↔
      o ∈ tr.listedOffsets m ∧ objType m' (tr.data.start + o) = some .binder := by
  have hsize : (contents tr m').data.length = tr.data.size := length_slice ..
  unfold HasBinder
  rw [offsets_of_contents, ho, hsize]
  refine and_congr_right fun hmem => ?_
  have hin := hw.inside o hmem
  rw [(object_of_contents hin).1]
  exact and_iff_right hin

theorem forall_hasBinder_iff {P : ℕ → Prop} (hw : WellPlaced tr m)
    (ho : tr.listedOffsets m' = tr.listedOffsets m) :
    (∀ o, HasBinder (contents tr m') o → P (objCookie (ofList (contents tr m').data) o)) ↔
      ∀ p ∈ listedPositions tr m, objType m' p = some .binder → P (objCookie m' p) := by
  unfold listedPositions
  rw [List.forall_mem_map]
  refine forall_congr' fun o => ?_
  rw [hasBinder_iff hw ho, and_imp]
  refine imp_congr_right fun hmem => ?_
  rw [(object_of_contents (hw.inside o hmem)).2]

/-- **What the translation of a well placed message leads to.** -/
theorem guarded_iff_safe (ht : TwoBuffers tr) (hlt : ∀ o ∈ tr.listedOffsets m, o < 256)
    (hw : WellPlaced tr m) :
    CarriesAddresses t (contents tr (processObjects .In tr t m).2.2) ∧
      CarriesIds t (contents tr m) ↔ Safe t tr m := by
  have hap := hw.separate_positions
  have haddresses := forall_hasBinder_iff (P := fun n => ∃ id, t.objects.lookup id = some n) hw
    (listedOffsets_processObjects ht hw hlt .In t)
  have hids := forall_hasBinder_iff (P := fun n => n ∈ t.objects) hw (Eq.refl (tr.listedOffsets m))
  unfold CarriesAddresses CarriesIds
  rw [haddresses, hids, (processObjects_eq ht hw hlt .In t).2]
  constructor
  · rintro ⟨hcarries, hknown⟩
    refine ⟨hw, hknown, fun p hp hb => ?_⟩
    by_cases hmem : p ∈ passed t m (listedPositions tr m)
    · exact .inl hmem
    · have h := hcarries p hp (by rw [walk_type hap hp]; exact hb)
      rw [(walk_in hap hp).2 hmem] at h
      exact .inr h
  · intro hs
    refine ⟨fun p hp hb => ?_, hs.known⟩
    rw [walk_type hap hp] at hb
    by_cases hmem : p ∈ passed t m (listedPositions tr m)
    · exact ⟨_, (walk_in hap hp).1 hmem hb⟩
    · rw [(walk_in hap hp).2 hmem]
      exact (hs.reached p hp hb).resolve_left hmem

theorem not_hasBinder (hsize : tr.data.size < 256)
    (h : ∀ p ∈ tr.namedPositions m, objType m p ≠ some .binder) {o : ℕ} :
    ¬ HasBinder (contents tr m) o := by
  rintro ⟨ho, hin, hb⟩
  have hlen : (contents tr m).data.length = tr.data.size := length_slice ..
  rw [offsets_of_contents] at ho
  rw [hlen] at hin
  rw [(object_of_contents hin).1] at hb
  exact h _ (mem_namedPositions ho (by omega)) hb

end In

/-- What `ProcessAndExecuteCommand` hands to an object. -/
def handedTransaction (c : ClientObjects) (transact : Behaviour) (msg : Message)
    (beyond : List UInt8) : Option Contents :=
  (executeTransaction c transact msg beyond).invoked.map (·.2)

/-- What `Transact` returns in `*reply`. -/
def handedReply (t : ObjectTranslator) (oneWay : Bool) (msg : Message) (beyond : List UInt8) :
    Option Contents :=
  match receiveReply t oneWay msg beyond with
  | .ok (_, reply) => reply
  | .error _ => none

/-- The message can be decoded, and there is an object that it is for. -/
def FindsObject (c : ClientObjects) (msg : Message) : Prop :=
  Complete msg.data ∧ (findObject c c.translator (decoded msg.data)).isSome

/-- The message is a reply that can be decoded, and is not the status of a failed call. -/
def IsReply (msg : Message) : Prop :=
  msg.type = .transactionReply ∧ Complete msg.data ∧ (decoded msg.data).hasStatus = false

section Handed

variable {c : ClientObjects} {transact : Behaviour} {t : ObjectTranslator} {oneWay : Bool}
  {msg : Message} {beyond : List UInt8}

theorem handedTransaction_eq (h : FindsObject c msg) (hn : ¬ (decoded msg.data).ListsNull) :
    handedTransaction c transact msg beyond = some (contents (decoded msg.data)
      (processObjects .In (decoded msg.data) c.translator (receivedMemory msg beyond)).2.2) := by
  obtain ⟨obj, hobj⟩ := Option.isSome_iff_exists.mp h.2
  rw [handedTransaction, executeTransaction_of_complete h.1 hn hobj]
  rfl

theorem handedTransaction_eq_none (h : ¬ FindsObject c msg ∨ (decoded msg.data).ListsNull) :
    handedTransaction c transact msg beyond = none := by
  unfold handedTransaction
  by_cases hc : Complete msg.data
  · by_cases hn : (decoded msg.data).ListsNull
    · rw [executeTransaction_of_listsNull hc hn]
      rfl
    have h := h.resolve_right hn
    have hnone : findObject c c.translator (decoded msg.data) = none := by
      rw [← Option.not_isSome_iff_eq_none]
      exact fun hsome => h ⟨hc, hsome⟩
    rw [invoked_of_not_found hc hnone]
    rfl
  · unfold executeTransaction
    rw [fromMessage_of_not_complete hc]
    rfl

theorem handedReply_eq (h : IsReply msg) (hn : ¬ (decoded msg.data).ListsNull) :
    handedReply t oneWay msg beyond = some (contents (decoded msg.data)
      (processObjects .In (decoded msg.data) t (receivedMemory msg beyond)).2.2) := by
  obtain ⟨ht, hc, hs⟩ := h
  unfold handedReply receiveReply
  simp [ht, fromMessage_of_complete hc, hs, processTransaction_eq_some hn]

theorem handedReply_eq_none (h : ¬ IsReply msg ∨ (decoded msg.data).ListsNull) :
    handedReply t oneWay msg beyond = none := by
  unfold handedReply receiveReply
  by_cases hstatus : oneWay ∧ msg.type = .status
  · rw [if_pos hstatus]
    cases hread : (BinaryReader.mk msg.data 0 true).readInt32 <;> simp [hread]
  rw [if_neg hstatus]
  by_cases ht : msg.type = .transactionReply
  · by_cases hc : Complete msg.data
    · cases hs : (decoded msg.data).hasStatus with
      | true =>
        cases hget : getStatus (decoded msg.data) (receivedMemory msg beyond) <;>
          simp [ht, fromMessage_of_complete hc, hs, hget]
      | false =>
        have hn := h.resolve_left (not_not.mpr ⟨ht, hc, hs⟩)
        simp [ht, fromMessage_of_complete hc, hs, processTransaction, hn]
    · simp [ht, fromMessage_of_not_complete hc]
  · rw [if_pos ht]

/-- A message that is handed on under the condition `A`, in the state the translation leaves it. -/
theorem guarded_iff {A : Prop} {handed : Option Contents}
    (hsome : A → ¬ (decoded msg.data).ListsNull → handed = some (contents (decoded msg.data)
      (processObjects .In (decoded msg.data) t (receivedMemory msg beyond)).2.2))
    (hnone : ¬ A ∨ (decoded msg.data).ListsNull → handed = none) :
    ((A → Harmless t (decoded msg.data) (receivedMemory msg beyond)) →
      Guarded t msg beyond handed) ∧
    (WellPlaced (decoded msg.data) (receivedMemory msg beyond) → Guarded t msg beyond handed →
      A → Harmless t (decoded msg.data) (receivedMemory msg beyond)) := by
  refine ⟨fun hharmless k hk => ?_, fun hw hguarded hA => ?_⟩
  · by_cases hA : A ∧ ¬ (decoded msg.data).ListsNull
    · rw [hsome hA.1 hA.2, Option.some.injEq] at hk
      rw [← hk]
      -- a message without binders is not changed, and has no cookies to speak of
      rcases hharmless hA.1 with hno | hs
      · rw [processObjects_of_unmoved (unmoved_of_no_binder hno)]
        have hsize : (decoded msg.data).data.size < 256 := byteOf_lt ..
        exact ⟨fun o ho => absurd ho (not_hasBinder hsize hno),
          fun o ho => absurd ho (not_hasBinder hsize hno)⟩
      · exact (guarded_iff_safe (twoBuffers_decoded _) hs.wellPlaced.lt hs.wellPlaced).mpr hs
    · rw [hnone (by tauto)] at hk
      cases hk
  · refine .inr ((guarded_iff_safe (twoBuffers_decoded _) hw.lt hw).mp (hguarded _ ?_))
    exact hsome hA hw.not_listsNull

end Handed

/-- **What is handed on carries addresses of the table if** the message is harmless. For a message
whose objects lie inside its data and do not overlap, this is the only case. Both for a Transaction
that is handed to an object, and for a reply that is returned to a caller. -/
theorem addresses_handed_iff (c : ClientObjects) (transact : Behaviour) (oneWay : Bool)
    (msg : Message) (beyond : List UInt8) :
    (((FindsObject c msg → Harmless c.translator (decoded msg.data) (receivedMemory msg beyond)) →
        Guarded c.translator msg beyond (handedTransaction c transact msg beyond)) ∧
      (WellPlaced (decoded msg.data) (receivedMemory msg beyond) →
        Guarded c.translator msg beyond (handedTransaction c transact msg beyond) →
        FindsObject c msg → Harmless c.translator (decoded msg.data) (receivedMemory msg beyond))) ∧
    (((IsReply msg → Harmless c.translator (decoded msg.data) (receivedMemory msg beyond)) →
        Guarded c.translator msg beyond (handedReply c.translator oneWay msg beyond)) ∧
      (WellPlaced (decoded msg.data) (receivedMemory msg beyond) →
        Guarded c.translator msg beyond (handedReply c.translator oneWay msg beyond) →
        IsReply msg → Harmless c.translator (decoded msg.data) (receivedMemory msg beyond))) :=
  ⟨guarded_iff handedTransaction_eq handedTransaction_eq_none,
    guarded_iff handedReply_eq handedReply_eq_none⟩

/-- A client with the context object `0x5000`, which it knows as `1`. -/
def knownClient : ClientObjects :=
  { translator := (ObjectTranslator.initial.translateOrAddObject 0x5000).2
    contextObj := some 0x5000 }

/-- A transaction for the context object, with a binder in it. -/
def binderMessage (cookie : ℕ) : Message :=
  transactMessage 0 5 1 (flatBinderObject .binder 0 1 cookie) [0]

/-- Nothing is returned. -/
def silent : Behaviour := fun _ _ => ⟨0, none, .initial, false⟩

theorem addresses_handed_iff_known :
    FindsObject knownClient (binderMessage 1) ∧ Guarded knownClient.translator (binderMessage 1) []
      (handedTransaction knownClient silent (binderMessage 1) []) := by
  have hsafe : Safe knownClient.translator (decoded (binderMessage 1).data)
      (receivedMemory (binderMessage 1) []) :=
    ⟨⟨by decide +kernel, by decide +kernel⟩, by decide +kernel, fun p hp _ => .inl (by
      revert p
      decide +kernel)⟩
  exact ⟨⟨by decide +kernel, by decide +kernel⟩,
    (addresses_handed_iff knownClient silent false (binderMessage 1) []).1.1 fun _ => .inr hsafe⟩

/-- The number `99` is not in the table, and the binder that carries it is handed on. -/
theorem unknown_id_handed :
    99 ∉ knownClient.translator.objects ∧
      handedTransaction knownClient silent (binderMessage 99) [] =
        some (contents (decoded (binderMessage 99).data) (receivedMemory (binderMessage 99) [])) ∧
      ¬ Guarded knownClient.translator (binderMessage 99) []
        (handedTransaction knownClient silent (binderMessage 99) []) := by
  have hhanded : handedTransaction knownClient silent (binderMessage 99) [] =
      some (contents (decoded (binderMessage 99).data) (receivedMemory (binderMessage 99) [])) := by
    decide +kernel
  refine ⟨by decide +kernel, hhanded, fun hguarded => ?_⟩
  have hids := (hguarded _ hhanded).2 0 ⟨by decide +kernel, by decide +kernel, by decide +kernel⟩
  revert hids
  decide +kernel

end Binderd.Clients.Addresses

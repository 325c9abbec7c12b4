import Binderd.Clients.Interning

/-! # Out and in again

A transaction that has left the client and comes back has its addresses again, whatever the
translator has done in the meantime.

A pass on the way out leaves each listed object `Translated`: a binder differs from what it was in
its cookie only, which is an id, and stands in the table under it; any other object is as it was.
The table only grows, so that this is still true when the transaction comes back. Then the pass on
the way in gets past every object, and each time one more is what it was
(`walk_in_of_translated`). -/

namespace Binderd.Clients.Restoring

open Binderd.Lib.Bytes Binderd.Lib.Tables Binderd.Lib.Walks Binderd.Lib.Runs
open Binderd.Wire.Messages Binderd.Wire.Transactions
open Binderd.Clients.Translator Binderd.Clients.Interning

/-! ### Tables that grow -/

/-- The entries of `t` are still in `t'`. -/
def Kept (t t' : ObjectTranslator) : Prop :=
  ∀ id object, t.objects.lookup id = some object → t'.objects.lookup id = some object

theorem Kept.refl (t : ObjectTranslator) : Kept t t := fun _ _ h => h

theorem Kept.trans {t t' t'' : ObjectTranslator} (h : Kept t t') (h' : Kept t' t'') : Kept t t'' :=
  fun id object hl => h' id object (h id object hl)

theorem kept_of_calls {t t' : ObjectTranslator} {cs : List Call} (h : Calls t cs t') :
    Kept t t' := by
  induction h with
  | nil => exact .refl _
  | cons _ _ ih => exact .trans (fun _ _ hl => ObjectTranslator.lookup_kept hl _) ih

theorem kept_of_path {t t' : ObjectTranslator} {h : List TranslatorStep}
    (hp : Path translator t h t') : Kept t t' := by
  induction hp with
  | nil => exact .refl _
  | snoc _ hv ih => exact ih.trans (kept_of_calls (calls_valid hv))

/-! ### Objects that were translated -/

/-- The object at `p` in `m'` is what a pass on the way out makes of the one in `m`, and `t` knows
the way back. -/
structure Translated (t : ObjectTranslator) (m m' : Mem) (p : ℕ) : Prop where
  valid : objType m p ≠ none
  fields : ∀ i, p ≤ i → i < p + 16 → m' i = m i
  cookie : objType m p = some .binder → t.objects.lookup (objCookie m' p) = some (objCookie m p)
  other : objType m p ≠ some .binder → ∀ i, p ≤ i → i < p + 24 → m' i = m i

section Object

variable {t t' : ObjectTranslator} {m m' m'' : Mem} {p : ℕ}

theorem Translated.kept (h : Translated t m m' p) (hk : Kept t t') : Translated t' m m' p :=
  ⟨h.valid, h.fields, fun hb => hk _ _ (h.cookie hb), h.other⟩

theorem Translated.congr (h : Translated t m m' p) (hs : ∀ i, p ≤ i → i < p + 24 → m'' i = m' i) :
    Translated t m m'' p := by
  refine ⟨h.valid, fun i h1 h2 => ?_, fun hb => ?_, fun hne i h1 h2 => ?_⟩
  · rw [hs i h1 (by omega), h.fields i h1 h2]
  · rw [objCookie_congr hs, h.cookie hb]
  · rw [hs i h1 h2, h.other hne i h1 h2]

theorem Translated.congr_left (h : Translated t m m' p)
    (hs : ∀ i, p ≤ i → i < p + 24 → m i = m'' i) : Translated t m'' m' p := by
  have ht : objType m'' p = objType m p := (objType_congr hs).symm
  have hc : objCookie m'' p = objCookie m p := (objCookie_congr hs).symm
  refine ⟨ht ▸ h.valid, fun i h1 h2 => ?_, fun hb => ?_, fun hne i h1 h2 => ?_⟩
  · rw [h.fields i h1 h2, hs i h1 (by omega)]
  · rw [hc, h.cookie (ht ▸ hb)]
  · rw [h.other (ht ▸ hne) i h1 h2, hs i h1 h2]

theorem Translated.type (h : Translated t m m' p) : objType m' p = objType m p := by
  unfold objType
  rw [load_congr fun i h1 h2 => h.fields i h1 (by omega)]

/-- What the way out makes of one object. -/
theorem Processed.translated (h : Processed t m p .Out t' m') (hn : t.Numbered)
    (hb : t'.nextObjectId ≤ 2 ^ 64) : Translated t' m m' p := by
  cases h with
  | skipped hne hv => exact ⟨hv, fun _ _ _ => rfl, fun h => absurd h hne, fun _ _ _ _ => rfl⟩
  | sent hbinder =>
    refine ⟨by simp [hbinder], fun i h1 h2 => store_of_not_mem (by omega), fun _ => ?_,
      fun hne => absurd hbinder hne⟩
    rcases t.translateOrAddObject_cases (objCookie m p) with ⟨hne, he⟩ | ⟨-, -, -, hnext⟩
    · have hl := ObjectTranslator.lookup_translateObject hne
      have hid := (hn.ids _ (mem_of_lookup hl)).2
      rw [he] at hb ⊢
      simp only at hb
      rwa [objCookie_setCookie (by omega)]
    · exact (Processed.sent hbinder).lookup_sent hn (by omega) hbinder

/-- The way in makes it what it was. -/
theorem Translated.restored (h : Translated t m m' p) : ∃ m'', processObject .In p t m' =
    .ok (t, m'') ∧ SameOutside p 24 m' m'' ∧ ∀ i, p ≤ i → i < p + 24 → m'' i = m i := by
  have hpass : Passable t m' p := by
    refine ⟨h.type ▸ h.valid, fun hb => ?_⟩
    exact mem_of_lookup (h.cookie (h.type ▸ hb))
  obtain ⟨m'', hs⟩ := processObject_of_passable hpass
  have hproc := processObject_ok hs
  refine ⟨m'', hs, hproc.outside, fun i h1 h2 => ?_⟩
  cases hproc with
  | skipped hne _ => exact h.other (h.type ▸ hne) i h1 h2
  | returned hb hl =>
    rw [h.cookie (h.type ▸ hb)] at hl
    obtain rfl := Option.some.inj hl
    by_cases hi : i < p + 16
    · rw [setCookie, store_of_not_mem (by omega), h.fields i h1 hi]
    · have hc : objCookie (setCookie m' p (objCookie m p)) p = objCookie m p :=
        objCookie_setCookie (objCookie_lt m p) m' p
      exact eq_of_load_eq hc i (by omega) (by omega)

end Object

/-! ### Passes -/

section Pass

variable {t : ObjectTranslator} {ps : List ℕ}

theorem nextObjectId_walk (d : Direction) (ps : List ℕ) (t : ObjectTranslator) (m : Mem) :
    t.nextObjectId ≤ (walk (processObject d) ps t m).2.1.nextObjectId := by
  induction ps generalizing t m with
  | nil => exact le_rfl
  | cons p ps ih =>
    rw [walk]
    cases hs : processObject d p t m with
    | error e => exact le_rfl
    | ok r =>
      obtain ⟨t', m'⟩ := r
      refine le_trans ?_ (ih t' m')
      cases processObject_ok hs with
      | sent _ =>
        rw [nextObjectId_call]
        exact Nat.le_add_right _ _
      | _ => exact le_rfl

theorem kept_walk (d : Direction) (ps : List ℕ) (t : ObjectTranslator) (m : Mem) :
    Kept t (walk (processObject d) ps t m).2.1 := fun _ _ hl => walk_kept ps hl

/-- **The way out** leaves every object translated. -/
theorem translated_of_walk_out (hap : Separate 24 ps) (hn : t.Numbered) {m : Mem}
    (hok : (walk (processObject .Out) ps t m).1 = none)
    (hb : (walk (processObject .Out) ps t m).2.1.nextObjectId ≤ 2 ^ 64) :
    ∀ p ∈ ps, Translated (walk (processObject .Out) ps t m).2.1 m
      (walk (processObject .Out) ps t m).2.2 p := by
  induction ps generalizing t m with
  | nil => exact fun _ h => absurd h List.not_mem_nil
  | cons q ps ih =>
    obtain ⟨hq, hrest⟩ := List.pairwise_cons.mp hap
    rw [walk] at hok hb ⊢
    cases hs : processObject .Out q t m with
    | error e =>
      rw [hs] at hok
      cases hok
    | ok r =>
      obtain ⟨t', m'⟩ := r
      rw [hs] at hok hb
      simp only at hok hb ⊢
      have hproc := processObject_ok hs
      have hb' : t'.nextObjectId ≤ 2 ^ 64 := (nextObjectId_walk .Out ps t' m').trans hb
      intro p hp
      rcases List.mem_cons.mp hp with rfl | hp
      · exact ((Processed.translated hproc hn hb').kept (kept_walk .Out ps t' m')).congr
          (walk_other hq)
      · have hn' : t'.Numbered := by
          cases hproc with
          | skipped _ _ => exact hn
          | sent _ => exact numbered_call hn hb'
        exact (ih hrest hn' hok hb p hp).congr_left (hproc.sameAt (hq p hp))

/-- **The way in** restores what was translated: the memories are equal if they are equal outside
the objects. -/
theorem walk_in_of_translated (hap : Separate 24 ps) {m m' : Mem}
    (h : ∀ p ∈ ps, Translated t m m' p)
    (ho : ∀ i, (∀ p ∈ ps, i < p ∨ p + 24 ≤ i) → m' i = m i) :
    walk (processObject .In) ps t m' = (none, t, m) := by
  induction ps generalizing m' with
  | nil =>
    rw [walk, show m' = m from funext fun i => ho i fun _ hp => absurd hp List.not_mem_nil]
  | cons q ps ih =>
    obtain ⟨hq, hrest⟩ := List.pairwise_cons.mp hap
    obtain ⟨hhead, htail⟩ := List.forall_mem_cons.mp h
    obtain ⟨m'', hs, hout, hin⟩ := hhead.restored
    rw [walk, hs]
    refine ih hrest (fun p hp => (htail p hp).congr fun i h1 h2 => ?_) fun i hi => ?_
    · have hdisjoint := hq p hp
      exact hout i (by omega)
    · by_cases hiq : q ≤ i ∧ i < q + 24
      · exact hin i hiq.1 hiq.2
      · rw [hout i (by omega)]
        exact ho i (List.forall_mem_cons.mpr ⟨by omega, hi⟩)

end Pass

/-! ### Transactions -/

section Transaction

variable {tr : TransactionData} {m : Mem} (ht : TwoBuffers tr) (hw : WellPlaced tr m)
  (hlt : ∀ o ∈ tr.listedOffsets m, o < 256)

include ht hw hlt

theorem walk_of_processTransaction {d : Direction} {t t' : ObjectTranslator} {m' : Mem}
    (hok : processTransaction d tr t m = some (.ok, t', m')) :
    walk (processObject d) (listedPositions tr m) t m = (none, t', m') := by
  have hresult := (of_processTransaction hok).2
  rw [(processObjects_eq ht hw hlt d t).2] at hresult
  exact Prod.ext (walk_status.mp (congrArg Prod.fst hresult).symm) (congrArg Prod.snd hresult).symm

/-- **Out and in again**, of the memory as a whole. -/
theorem processTransaction_in_of_out {t t₁ t' : ObjectTranslator} {m₁ : Mem} (hn : t.Numbered)
    (hout : processTransaction .Out tr t m = some (.ok, t₁, m₁)) (hb : t₁.nextObjectId ≤ 2 ^ 64)
    (hk : Kept t₁ t') : processTransaction .In tr t' m₁ = some (.ok, t', m) := by
  have hap := hw.separate_positions
  have hoffsets : tr.listedOffsets m₁ = tr.listedOffsets m := by
    have h := listedOffsets_processObjects ht hw hlt .Out t
    rwa [← (of_processTransaction hout).2] at h
  have hwalk := walk_of_processTransaction ht hw hlt hout
  have htrans : ∀ p ∈ listedPositions tr m, Translated t₁ m m₁ p := by
    have h := translated_of_walk_out hap hn (m := m) (by rw [hwalk]) (by rw [hwalk]; exact hb)
    rwa [hwalk] at h
  have hframe : ∀ i, (∀ p ∈ listedPositions tr m, i < p ∨ p + 24 ≤ i) → m₁ i = m i := by
    intro i hi
    have h := walk_frame (processObject_local .Out) hi t m
    rwa [hwalk] at h
  have hw₁ : WellPlaced tr m₁ := by
    refine ⟨?_, ?_⟩ <;> rw [hoffsets]
    · exact hw.inside
    · exact hw.separate
  have hpos : listedPositions tr m₁ = listedPositions tr m := by
    rw [listedPositions, hoffsets, listedPositions]
  rw [processTransaction_eq_some hw.not_listsNull,
    (processObjects_eq ht hw₁ (by rw [hoffsets]; exact hlt) .In t').2, hpos,
    walk_in_of_translated hap (fun p hp => (htrans p hp).kept hk) hframe]
  rfl

/-- **Out and in again.** What `ProcessTransaction` does to a transaction on the way out, it undoes
on the way in, whatever operations come between. -/
theorem restored_of_sent {h h' : List TranslatorStep} {t t₁ t' : ObjectTranslator} {m₁ : Mem}
    (hr : Run translator h t) (hout : processTransaction .Out tr t m = some (.ok, t₁, m₁))
    (hb : t₁.nextObjectId ≤ 2 ^ 64) (hp : Path translator t₁ h' t') :
    ∃ m', processTransaction .In tr t' m₁ = some (.ok, t', m') ∧
      slice m' tr.data.start tr.data.size = slice m tr.data.start tr.data.size := by
  have hn : t.Numbered := by
    have hwalk := walk_of_processTransaction ht hw hlt hout
    have hle := nextObjectId_walk .Out (listedPositions tr m) t m
    rw [hwalk] at hle
    exact (bijection_of_run hr (hle.trans hb)).numbered
  exact ⟨m, processTransaction_in_of_out ht hw hlt hn hout hb (kept_of_path hp), rfl⟩

end Transaction

/-- A binder with the address `0x7f40`, and a handle. -/
def mixedData : List UInt8 := flatBinderObject .binder 0 0 0x7f40 ++ flatBinderObject .handle 0 3 0

/-- The pass of `mixedData` on the way out. -/
def mixedOut : Option (Status × ObjectTranslator × Mem) :=
  processTransaction .Out (parcel mixedData [0, 24]) (final translator .initial internScenario)
    (parcelMemory mixedData [0, 24])

theorem restored_of_sent_mixedData :
    WellPlaced (parcel mixedData [0, 24]) (parcelMemory mixedData [0, 24]) ∧
      ∃ t₁ m₁ m', mixedOut = some (.ok, t₁, m₁) ∧
        processTransaction .In (parcel mixedData [0, 24]) (final translator t₁ internScenario) m₁ =
          some (.ok, final translator t₁ internScenario, m') ∧
        slice m' 0 48 = slice (parcelMemory mixedData [0, 24]) 0 48 := by
  have hpass : mixedOut.any (fun r => decide (r.1 = .ok ∧ r.2.1.nextObjectId ≤ 2 ^ 64)) = true := by
    decide +kernel
  obtain ⟨⟨status, t₁, m₁⟩, hout, hcond⟩ := (Option.any_eq_true _ _).mp hpass
  obtain ⟨rfl, hb⟩ := of_decide_eq_true hcond
  have hw : WellPlaced (parcel mixedData [0, 24]) (parcelMemory mixedData [0, 24]) :=
    ⟨by decide +kernel, by decide +kernel⟩
  have ht : TwoBuffers (parcel mixedData [0, 24]) := .inr (by decide +kernel)
  obtain ⟨m', hin, hdata⟩ := restored_of_sent ht hw (by decide +kernel)
    (path_history translator internScenario .initial) hout hb
    (path_history translator internScenario t₁)
  exact ⟨hw, t₁, m₁, m', hout, hin, hdata⟩

end Binderd.Clients.Restoring

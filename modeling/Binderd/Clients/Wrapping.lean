import Binderd.Clients.Addresses
import Binderd.Clients.Restoring

/-! # Android processes

An Android process talks to the server through a `binderd::Client`. `TransactionDataFromParcel`
makes a transaction of a parcel: each binder in it is an `IBinder`, for which a `WrappedObject` is
made and adopted by the client's pool, and the address of the wrapper takes the place of that of the
`IBinder`. Then the transaction leaves the client as any other does, with ids in the place of
addresses. `WrappedObject::Transact` calls the `IBinder`, and makes a transaction of its response.

In every run (`binders_called`), each binder that is sent goes under an id of its own, also if the
same `IBinder` has been sent before. A transaction for an id calls the `IBinder` that was sent under
it, and if there is none, nobody is called. A null pointer that is sent is not told from an
`IBinder`, and a call of it crashes. A process also dies of objects that are listed for no data;
nothing comes after that, and there is no step for it. -/

namespace Binderd.Clients.Wrapping

open Binderd.Lib.Bytes Binderd.Lib.Tables Binderd.Lib.Walks Binderd.Lib.Runs
open Binderd.Wire.Streams Binderd.Wire.Messages Binderd.Wire.Transactions
open Binderd.Clients.Translator Binderd.Clients.Handlers Binderd.Clients.Restoring

/-! ### The process -/

/-- The pool of the client, and the `WrappedObject`s. -/
structure Wrappers where
  pool : ObjectPool := {}
  /-- `cookie_`, of the wrapper at an address. -/
  wrapped : ℕ → Option ℕ := fun _ => none
  /-- The number of wrappers that have been made. -/
  made : ℕ := 0

/-- The client of a process: its pool with the wrappers, and its translator. -/
structure Process where
  wrappers : Wrappers := {}
  translator : ObjectTranslator := .initial

/-- What an `IBinder` returns: the status, the response, and what `errorCheck` says about it. -/
structure Response where
  status : ℤ
  data : List UInt8
  offsets : List ℕ
  error : ℤ

/-- What `WrappedObject::Transact` returns. -/
def Response.result (r : Response) : ℤ := if r.error ≠ 0 then r.error else r.status

/-- What a process does that others can see. -/
inductive ProcessEvent where
  /-- The `IBinder` leaves the process, under an id. -/
  | sent (binder id : ℕ)
  | called (binder : ℕ) (request : Contents)
  /-- A null pointer is called. -/
  | crashed (request : Contents)
deriving DecidableEq

/-- What a process is to do. -/
inductive ProcessAction where
  /-- `IPCThreadState::transact`, of a parcel. -/
  | transact (data : List UInt8) (offsets : List ℕ)
  /-- `ProcessAndExecuteCommand`, for a Transaction. -/
  | execute (msg : Message) (beyond : List UInt8) (response : Response)

/-- The binders among the objects at these positions. -/
def bindersAt (m : Mem) (ps : List ℕ) : List ℕ := ps.filter fun p => objType m p = some .binder

/-- The positions of the objects in a parcel. -/
abbrev objectsIn (data : List UInt8) (offsets : List ℕ) : List ℕ :=
  listedPositions (parcel data offsets) (parcelMemory data offsets)

/-- The positions of the binders in a parcel. -/
abbrev bindersIn (data : List UInt8) (offsets : List ℕ) : List ℕ :=
  bindersAt (parcelMemory data offsets) (objectsIn data offsets)

/-- The binders of a parcel that has become a transaction with the memory `m`. -/
def sentBinders (data : List UInt8) (offsets : List ℕ) (m : Mem) : List ProcessEvent :=
  (bindersIn data offsets).map fun p =>
    .sent (objCookie (parcelMemory data offsets) p) (objCookie m p)

section Process

variable (allocate : ℕ → ℕ)

/-- One turn of the loop in the constructor of `TransactionDataFromParcel`. `allocate n` is what the
`n`-th `new WrappedObject` returns. A wrapper that the pool does not adopt is destroyed at the end
of the turn. -/
def wrapObject : Step Wrappers Exn := fun p st m =>
  match objType m p with
  | some .binder =>
    let cookie := allocate st.made
    let wrapped := Function.update st.wrapped cookie (some (objCookie m p))
    let st := { st with made := st.made + 1 }
    if st.pool.contains cookie then .ok (st, setCookie m p cookie)
    else
      match st.pool.adoptObject cookie with
      | .ok pool => .ok ({ st with pool := pool, wrapped := wrapped }, setCookie m p cookie)
      | .error e => .error e
  | _ => .ok (st, m)

/-- The loop in the constructor of `TransactionDataFromParcel`. An offset is read as one byte
(`static_cast<binder_size_t>(*current)`). -/
def wrapObjects (st : Wrappers) (data : List UInt8) (offsets : List ℕ) :
    Option Exn × Wrappers × Mem :=
  let tr := parcel data offsets
  walkArray (wrapObject allocate) tr.data.start tr.numObjectOffsets tr.objects.start st
    (parcelMemory data offsets)

/-- The constructor of `TransactionDataFromParcel`; `none` if it dereferences a null pointer. -/
def transactionDataFromParcel (st : Wrappers) (data : List UInt8) (offsets : List ℕ) :
    Option (Option Exn × Wrappers × Mem) :=
  if (parcel data offsets).ListsNull then none else some (wrapObjects allocate st data offsets)

/-- A parcel is wrapped, and, if it is to be sent, translated; `none` if the process dies. -/
def sendParcel (st : Process) (data : List UInt8) (offsets : List ℕ) (isSent : Bool) :
    Option (Process × List ProcessEvent) :=
  match transactionDataFromParcel allocate st.wrappers data offsets with
  | none => none
  | some (some _, wrappers, _) => some ({ st with wrappers := wrappers }, [])
  | some (none, wrappers, m) =>
    if isSent then
      (processTransaction .Out (parcel data offsets) st.translator m).map
        fun (_, translator, m) => (⟨wrappers, translator⟩, sentBinders data offsets m)
    else some ({ st with wrappers := wrappers }, [])

/-- One step of the process. An `IBinder` returns the response that the action names. -/
def processStep (st : Process) : ProcessAction → Option (Process × List ProcessEvent)
  | .transact data offsets => sendParcel allocate st data offsets true
  | .execute msg beyond response =>
    match fromMessage msg.data with
    | .error _ => some (st, [])
    | .ok request =>
      match processTransaction .In request st.translator (receivedMemory msg beyond) with
      | none => none
      | some (_, translator, m) =>
        let st := { st with translator := translator }
        match findObject ⟨translator, st.wrappers.pool, none⟩ translator request with
        | none => some (st, [])
        | some obj =>
          match st.wrappers.wrapped obj with
          | none => none
          | some 0 => some (st, [.crashed (contents request m)])
          | some binder =>
            (sendParcel allocate st response.data response.offsets (response.result = 0)).map
              fun (st, sent) => (st, .called binder (contents request m) :: sent)

/-- **An Android process.** -/
def androidProcess : Machine Process ProcessAction ProcessEvent := ⟨{}, processStep allocate⟩

end Process

/-- The steps of a process, as its histories record them. -/
abbrev ProcessStep := Transition Process ProcessAction ProcessEvent

/-! ### Wrapping -/

/-- The first `n` addresses are different, and none is that of another wrapper. Nothing is ever
released from the pool, so no address is used twice. -/
structure Addresses (allocate : ℕ → ℕ) (n : ℕ) : Prop where
  pos : ∀ i < n, 0 < allocate i
  lt : ∀ i < n, allocate i < 2 ^ 64
  inj : ∀ i < n, ∀ j < n, allocate i = allocate j → i = j

/-- The pool holds the wrappers that have been made. -/
structure Adopted (allocate : ℕ → ℕ) (st : Wrappers) : Prop where
  found : ∀ n < st.made, st.pool.getObject (allocate n) = some (allocate n)
  only : ∀ k, st.pool.contains k = true → ∃ n < st.made, allocate n = k

/-- A binder is wrapped. -/
def Wrappers.wrap (st : Wrappers) (cookie binder : ℕ) : Wrappers where
  pool := { references := insertNew st.pool.references cookie ⟨0, cookie⟩ }
  wrapped := Function.update st.wrapped cookie (some binder)
  made := st.made + 1

section Wrap

variable {allocate : ℕ → ℕ} {N : ℕ} {st : Wrappers} {m : Mem} {p : ℕ}

theorem Adopted.fresh (ha : Addresses allocate N) (hs : Adopted allocate st) (hlt : st.made < N) :
    st.pool.contains (allocate st.made) = false := by
  by_contra hc
  obtain ⟨n, hn, heq⟩ := hs.only _ (by simpa using hc)
  have := ha.inj n (hn.trans hlt) _ hlt heq
  omega

theorem Adopted.wrap (ha : Addresses allocate N) (hs : Adopted allocate st) (hlt : st.made < N)
    (binder : ℕ) : Adopted allocate (st.wrap (allocate st.made) binder) := by
  have hfresh := hs.fresh ha hlt
  have hnone : st.pool.references.lookup (allocate st.made) = none := by
    simpa [ObjectPool.contains] using hfresh
  constructor
  · intro n hn
    simp only [Wrappers.wrap, ObjectPool.getObject] at hn ⊢
    by_cases hmade : n = st.made
    · rw [hmade, lookup_insertNew_self (AList.lookup_eq_none.mp hnone)]
      rfl
    · have hne : allocate n ≠ allocate st.made := fun heq => by
        have := ha.inj n (by omega) _ hlt heq
        omega
      rw [lookup_insertNew_of_ne hne]
      exact hs.found n (by omega)
  · intro k hk
    simp only [Wrappers.wrap, ObjectPool.contains] at hk ⊢
    by_cases hmade : k = allocate st.made
    · exact ⟨st.made, by omega, hmade.symm⟩
    · rw [lookup_insertNew_of_ne hmade] at hk
      obtain ⟨n, hn, heq⟩ := hs.only k hk
      exact ⟨n, by omega, heq⟩

theorem wrapObject_eq (ha : Addresses allocate N) (hs : Adopted allocate st)
    (hlt : objType m p = some .binder → st.made < N) :
    wrapObject allocate p st m =
      if objType m p = some .binder then
        .ok (st.wrap (allocate st.made) (objCookie m p), setCookie m p (allocate st.made))
      else .ok (st, m) := by
  unfold wrapObject
  cases ht : objType m p with
  | none => rfl
  | some t =>
    cases t with
    | binder =>
      have hfresh := hs.fresh ha (hlt ht)
      simp [hfresh, ObjectPool.adoptObject, Wrappers.wrap]
    | _ => rfl

theorem wrapObject_cases (allocate : ℕ → ℕ) (st : Wrappers) (m : Mem) (p : ℕ) :
    (objType m p = some .binder ∧ ∃ st', st'.made = st.made + 1 ∧
      wrapObject allocate p st m = .ok (st', setCookie m p (allocate st.made))) ∨
    objType m p ≠ some .binder ∧ wrapObject allocate p st m = .ok (st, m) := by
  unfold wrapObject
  cases ht : objType m p with
  | none => exact .inr ⟨nofun, rfl⟩
  | some t =>
    cases t with
    | binder =>
      refine .inl ⟨rfl, ?_⟩
      cases hc : st.pool.contains (allocate st.made) with
      | true => exact ⟨{ st with made := st.made + 1 }, rfl, by simp [hc]⟩
      | false =>
        exact ⟨st.wrap (allocate st.made) (objCookie m p), rfl,
          by simp [hc, ObjectPool.adoptObject, Wrappers.wrap]⟩
    | _ => exact .inr ⟨nofun, rfl⟩

theorem wrapObject_local (allocate : ℕ → ℕ) : Local (wrapObject allocate) 24 := by
  intro p st m st' m' h
  rcases wrapObject_cases allocate st m p with ⟨-, st₁, -, heq⟩ | ⟨-, heq⟩
  · rw [heq] at h
    cases h
    exact setCookie_outside _ _ _
  · rw [heq] at h
    cases h
    exact .refl _ _ _

theorem bindersAt_congr {m' : Mem} {ps : List ℕ} (h : ∀ p ∈ ps, objType m' p = objType m p) :
    bindersAt m' ps = bindersAt m ps :=
  List.filter_congr fun p hp => by rw [h p hp]

/-- The number of wrappers grows by that of the binders. -/
theorem made_walk (allocate : ℕ → ℕ) {ps : List ℕ} (hap : Separate 24 ps) (st : Wrappers)
    (m : Mem) :
    (walk (wrapObject allocate) ps st m).2.1.made = st.made + (bindersAt m ps).length := by
  induction ps generalizing st m with
  | nil => rfl
  | cons q ps ih =>
    obtain ⟨hq, hrest⟩ := List.pairwise_cons.mp hap
    rw [walk]
    rcases wrapObject_cases allocate st m q with ⟨hb, st₁, hmade, heq⟩ | ⟨hb, heq⟩
    · have htypes : bindersAt (setCookie m q (allocate st.made)) ps = bindersAt m ps := by
        refine bindersAt_congr fun p hp => objType_congr fun i h1 h2 => ?_
        have := hq p hp
        refine setCookie_outside m q (allocate st.made) i ?_
        omega
      have hbs : bindersAt m (q :: ps) = q :: bindersAt m ps := by simp [bindersAt, hb]
      rw [heq, hbs, List.length_cons]
      simp only
      rw [ih hrest, hmade, htypes]
      omega
    · have hbs : bindersAt m (q :: ps) = bindersAt m ps := by simp [bindersAt, hb]
      rw [heq, hbs]
      exact ih hrest st m

/-- What a walk over parcel objects does, if `bs` are the binders: they get the next addresses. -/
structure WrappedAll (allocate : ℕ → ℕ) (st st' : Wrappers) (m m' : Mem) (bs : List ℕ) : Prop where
  made : st'.made = st.made + bs.length
  each : List.Forall₂ (fun p n => objCookie m' p = allocate n ∧ n < st'.made ∧
    st'.wrapped (allocate n) = some (objCookie m p)) bs (List.range' st.made bs.length)
  kept : ∀ n < st.made, st'.wrapped (allocate n) = st.wrapped (allocate n)

theorem WrappedAll.cons {st' : Wrappers} {m₁ m' : Mem} {q : ℕ} {bs : List ℕ}
    (h : WrappedAll allocate (st.wrap (allocate st.made) (objCookie m q)) st' m₁ m' bs)
    (hne : ∀ n < st.made, allocate n ≠ allocate st.made) (hq : objCookie m' q = allocate st.made)
    (hbs : ∀ p ∈ bs, objCookie m₁ p = objCookie m p) :
    WrappedAll allocate st st' m m' (q :: bs) where
  made := by
    rw [h.made, List.length_cons]
    simp only [Wrappers.wrap]
    omega
  each := by
    have hself : st'.wrapped (allocate st.made) = some (objCookie m q) := by
      rw [h.kept st.made (Nat.lt_succ_self _)]
      exact Function.update_self ..
    have hrest := (List.forall₂_and_left _ _).mpr ⟨hbs, h.each⟩
    rw [List.length_cons, List.range'_succ]
    refine .cons ⟨hq, ?_, hself⟩ (hrest.imp ?_)
    · rw [h.made]
      simp only [Wrappers.wrap]
      omega
    · rintro p n ⟨heq, hc, hlt, hw⟩
      exact ⟨hc, hlt, heq ▸ hw⟩
  kept n hn := by
    rw [h.kept n (Nat.lt_succ_of_lt hn)]
    exact Function.update_of_ne (hne n hn) ..

theorem walk_wrap (ha : Addresses allocate N) {ps : List ℕ} (hap : Separate 24 ps)
    (hs : Adopted allocate st) (hN : st.made + (bindersAt m ps).length ≤ N) :
    ∃ st' m', walk (wrapObject allocate) ps st m = (none, st', m') ∧ Adopted allocate st' ∧
      WrappedAll allocate st st' m m' (bindersAt m ps) ∧
      ∀ p ∈ ps, objType m' p = objType m p := by
  induction ps generalizing st m with
  | nil => exact ⟨st, m, rfl, hs, ⟨rfl, .nil, fun _ _ => rfl⟩, by simp⟩
  | cons q ps ih =>
    obtain ⟨hq, hrest⟩ := List.pairwise_cons.mp hap
    have hstep := wrapObject_eq (m := m) (p := q) ha hs fun hb => by
      simp only [bindersAt, List.filter_cons, hb, decide_true, if_true, List.length_cons] at hN
      omega
    rw [walk]
    by_cases hb : objType m q = some .binder
    · rw [if_pos hb] at hstep
      have hbs : bindersAt m (q :: ps) = q :: bindersAt m ps := by simp [bindersAt, hb]
      have hsame : ∀ p ∈ ps, ∀ i, p ≤ i → i < p + 24 →
          setCookie m q (allocate st.made) i = m i := by
        intro p hp i h1 h2
        have := hq p hp
        refine setCookie_outside m q (allocate st.made) i ?_
        omega
      have htypes := bindersAt_congr fun p hp => objType_congr (hsame p hp)
      rw [hbs, List.length_cons] at hN
      obtain ⟨st', m', hw, hs', hall, htype⟩ := ih (m := setCookie m q (allocate st.made)) hrest
        (hs.wrap ha (by omega) (objCookie m q)) (by
          rw [htypes]
          simp only [Wrappers.wrap]
          omega)
      rw [htypes] at hall
      have hother := walk_sameAt (wrapObject_local allocate) hq
        (st.wrap (allocate st.made) (objCookie m q)) (setCookie m q (allocate st.made))
      rw [hw] at hother
      rw [hstep, hbs]
      refine ⟨st', m', hw, hs', ?_, List.forall_mem_cons.mpr
        ⟨(objType_congr hother).trans (objType_setCookie _ _ _), fun p hp => ?_⟩⟩
      · refine hall.cons (fun n hn heq => ?_) ?_ fun p hp => ?_
        · have := ha.inj n (by omega) _ (by omega) heq
          omega
        · rw [objCookie_congr hother, objCookie_setCookie (ha.lt _ (by omega))]
        · exact objCookie_congr (hsame p (List.mem_of_mem_filter hp))
      · rw [htype p hp, objType_congr (hsame p hp)]
    · rw [if_neg hb] at hstep
      have hbs : bindersAt m (q :: ps) = bindersAt m ps := by simp [bindersAt, hb]
      rw [hbs] at hN ⊢
      obtain ⟨st', m', hw, hs', hall, htype⟩ := ih hrest hs hN
      rw [hstep]
      have hother := walk_sameAt (wrapObject_local allocate) hq st m
      rw [hw] at hother
      exact ⟨st', m', hw, hs', hall, List.forall_mem_cons.mpr ⟨objType_congr hother, htype⟩⟩

end Wrap

/-! ### Leaving the process -/

section Out

variable {t : ObjectTranslator} {m : Mem} {ps : List ℕ} {id object : ℕ}

theorem entry_translateOrAddObject {object' : ℕ}
    (h : (t.translateOrAddObject object').2.objects.lookup id = some object) :
    t.objects.lookup id = some object ∨
      id = (t.translateOrAddObject object').1 ∧ object = object' % 2 ^ 64 := by
  rcases t.translateOrAddObject_cases object' with ⟨-, he⟩ | ⟨-, hid, hobjects, -⟩
  · rw [he] at h
    exact .inl h
  · rw [hobjects, lookup_insertNew] at h
    split_ifs at h with hk
    · exact .inr ⟨hk.1.trans hid.symm, (Option.some.inj h).symm⟩
    · exact .inl h

theorem numbered_of_processed {t' : ObjectTranslator} {m' : Mem} {p : ℕ}
    (h : Processed t m p .Out t' m') (hn : t.Numbered) (hb : t'.nextObjectId ≤ 2 ^ 64) :
    t'.Numbered := by
  cases h with
  | skipped _ _ => exact hn
  | sent _ => exact Interning.numbered_call hn hb

theorem numbered_walk_out (hn : t.Numbered)
    (hb : (walk (processObject .Out) ps t m).2.1.nextObjectId ≤ 2 ^ 64) :
    (walk (processObject .Out) ps t m).2.1.Numbered := by
  induction ps generalizing t m with
  | nil => exact hn
  | cons q ps ih =>
    rw [walk] at hb ⊢
    cases hs : processObject .Out q t m with
    | error e => exact hn
    | ok r =>
      rw [hs] at hb
      have hproc := processObject_ok hs
      exact ih (numbered_of_processed hproc hn ((nextObjectId_walk .Out ps _ _).trans hb)) hb

/-- What a pass enters into the table are the binders, under their ids. -/
theorem entry_walk_out (hap : Separate 24 ps) (hn : t.Numbered)
    (hb : (walk (processObject .Out) ps t m).2.1.nextObjectId ≤ 2 ^ 64)
    (h : (walk (processObject .Out) ps t m).2.1.objects.lookup id = some object) :
    t.objects.lookup id = some object ∨ ∃ p ∈ ps, objType m p = some .binder ∧
      objCookie m p = object ∧ objCookie (walk (processObject .Out) ps t m).2.2 p = id := by
  induction ps generalizing t m with
  | nil => exact .inl h
  | cons q ps ih =>
    obtain ⟨hq, hrest⟩ := List.pairwise_cons.mp hap
    rw [walk] at h hb ⊢
    cases hs : processObject .Out q t m with
    | error e =>
      rw [hs] at h
      exact .inl h
    | ok r =>
      obtain ⟨t', m'⟩ := r
      rw [hs] at h hb
      simp only at h hb ⊢
      have hproc := processObject_ok hs
      have hb' := (nextObjectId_walk .Out ps t' m').trans hb
      have hn' := numbered_of_processed hproc hn hb'
      rcases ih hrest hn' hb h with hl | ⟨p, hp, hbinder, hc, hid⟩
      · have hlt := (hn'.ids id (mem_of_lookup hl)).2
        cases hproc with
        | skipped _ _ => exact .inl hl
        | sent hbinder =>
          rcases entry_translateOrAddObject hl with hl | ⟨hid, hobject⟩
          · exact .inl hl
          · refine .inr ⟨q, by simp, hbinder, ?_, ?_⟩
            · rw [hobject, Nat.mod_eq_of_lt (objCookie_lt m q)]
            · rw [objCookie_congr (walk_other hq), ← hid, objCookie_setCookie (by omega)]
      · have hsame := hproc.sameAt (hq p hp)
        exact .inr ⟨p, by simp [hp], (objType_congr hsame).symm.trans hbinder,
          (objCookie_congr hsame).symm.trans hc, hid⟩

theorem walk_out_none (hap : Separate 24 ps) (ht : ∀ p ∈ ps, objType m p ≠ none) :
    (walk (processObject .Out) ps t m).1 = none := by
  cases hw : (walk (processObject .Out) ps t m).1 with
  | none => rfl
  | some e =>
    obtain ⟨v, hv, he⟩ := exists_failed hw
    have htype := objType_congr (visit_sameAt (processObject_local .Out) hap hv)
    have hne := ht _ (mem_of_visits hv)
    rw [← htype] at hne
    unfold processObject at he
    split at he
    any_goals cases he
    next h => exact absurd h hne

end Out

/-! ### A parcel -/

/-- The objects of the parcel lie inside the data, below `256`, do not overlap, and have types. -/
structure WellFormed (data : List UInt8) (offsets : List ℕ) : Prop where
  placed : WellPlaced (parcel data offsets) (parcelMemory data offsets)
  low : ∀ o ∈ (parcel data offsets).listedOffsets (parcelMemory data offsets), o < 256
  typed : ∀ p ∈ objectsIn data offsets, objType (parcelMemory data offsets) p ≠ none

instance (data : List UInt8) (offsets : List ℕ) : Decidable (WellFormed data offsets) :=
  decidable_of_iff (((∀ o ∈ (parcel data offsets).listedOffsets (parcelMemory data offsets),
      o + 24 ≤ (parcel data offsets).data.size) ∧
      Separate 24 ((parcel data offsets).listedOffsets (parcelMemory data offsets))) ∧
    (∀ o ∈ (parcel data offsets).listedOffsets (parcelMemory data offsets), o < 256) ∧
    ∀ p ∈ objectsIn data offsets, objType (parcelMemory data offsets) p ≠ none)
    ⟨fun h => ⟨⟨h.1.1, h.1.2⟩, h.2.1, h.2.2⟩,
      fun h => ⟨⟨h.placed.inside, h.placed.separate⟩, h.low, h.typed⟩⟩

section Parcel

variable {allocate : ℕ → ℕ} {N : ℕ} {data : List UInt8} {offsets : List ℕ}

theorem twoBuffers_parcel (data : List UInt8) (offsets : List ℕ) :
    TwoBuffers (parcel data offsets) := .inr (Nat.zero_add _).le

/-- The constructor walks over the listed objects. -/
theorem wrapObjects_eq (h : WellFormed data offsets) (st : Wrappers) :
    wrapObjects allocate st data offsets =
      walk (wrapObject allocate) (objectsIn data offsets) st (parcelMemory data offsets) := by
  have hpositions := positions_eq_listed h.low
  have hinside : ∀ v ∈ visits (wrapObject allocate) ((parcel data offsets).namedPositions
      (parcelMemory data offsets)) st (parcelMemory data offsets), v.Inside 24 0 data.length := by
    intro v hv
    rw [hpositions] at hv
    obtain ⟨o, ho, hpos⟩ := List.mem_map.mp (mem_of_visits hv)
    have hin : o + 24 ≤ data.length := h.placed.inside o ho
    have hstart : (parcel data offsets).data.start = 0 := rfl
    exact ⟨Nat.zero_le _, by omega⟩
  have hwalk := walkArray_eq (wrapObject_local allocate) (fun i _ => .inr (by
    rw [Nat.zero_add]
    exact Nat.le_add_right _ _)) (.inl hinside)
  rw [wrapObjects, objectsIn, ← hpositions]
  exact hwalk.2

theorem listedOffsets_of_wrapped (h : WellFormed data offsets) {st st' : Wrappers} {m : Mem}
    (hw : walk (wrapObject allocate) (objectsIn data offsets) st (parcelMemory data offsets) =
      (none, st', m)) : (parcel data offsets).listedOffsets m =
        (parcel data offsets).listedOffsets (parcelMemory data offsets) := by
  refine List.map_congr_left fun i hi => load_congr fun j h1 h2 => ?_
  have hout : ∀ p ∈ objectsIn data offsets, j < p ∨ p + 24 ≤ j := by
    intro p hp
    obtain ⟨o, ho, rfl⟩ := List.mem_map.mp hp
    have hin : o + 24 ≤ data.length := h.placed.inside o ho
    have hstart : (parcel data offsets).data.start = 0 := rfl
    have harray : (parcel data offsets).objects.start = data.length := rfl
    omega
  have hframe := walk_frame (wrapObject_local allocate) hout st (parcelMemory data offsets)
  rwa [hw] at hframe

/-- What a parcel that is sent brings with it. -/
structure SentAll (allocate : ℕ → ℕ) (data : List UInt8) (offsets : List ℕ) (st st' : Process)
    (m m' : Mem) : Prop where
  adopted : Adopted allocate st'.wrappers
  wrapped : WrappedAll allocate st.wrappers st'.wrappers (parcelMemory data offsets) m
    (bindersIn data offsets)
  numbered : st'.translator.Numbered
  kept : Kept st.translator st'.translator
  entered : ∀ p ∈ bindersIn data offsets,
    st'.translator.objects.lookup (objCookie m' p) = some (objCookie m p)
  entries : ∀ id object, st'.translator.objects.lookup id = some object →
    st.translator.objects.lookup id = some object ∨
      ∃ p ∈ bindersIn data offsets, objCookie m' p = id

/-- What a process does with a parcel that it survives. -/
theorem of_sendParcel {st : Process} {isSent : Bool} {r : Process × List ProcessEvent}
    (h : sendParcel allocate st data offsets isSent = some r) :
    ∃ e w m, wrapObjects allocate st.wrappers data offsets = (e, w, m) ∧ r.1.wrappers = w ∧
      r = if e = none ∧ isSent then
        (⟨w, (processObjects .Out (parcel data offsets) st.translator m).2.1⟩,
          sentBinders data offsets
            (processObjects .Out (parcel data offsets) st.translator m).2.2)
      else ({ st with wrappers := w }, []) := by
  unfold sendParcel transactionDataFromParcel at h
  by_cases hn : (parcel data offsets).ListsNull
  · rw [if_pos hn] at h
    cases h
  rw [if_neg hn] at h
  rcases hw : wrapObjects allocate st.wrappers data offsets with ⟨e, w, m⟩
  refine ⟨e, w, m, rfl, ?_⟩
  rw [hw] at h
  cases e with
  | some e =>
    cases h
    exact ⟨rfl, rfl⟩
  | none =>
    cases isSent with
    | false =>
      cases h
      exact ⟨rfl, rfl⟩
    | true =>
      simp only [processTransaction_eq_some hn, Option.map_some] at h
      cases h
      exact ⟨rfl, rfl⟩

theorem wrapped_of_sendParcel (ha : Addresses allocate N) (h : WellFormed data offsets)
    {st : Process} (hs : Adopted allocate st.wrappers) {isSent : Bool}
    {r : Process × List ProcessEvent} (hsend : sendParcel allocate st data offsets isSent = some r)
    (hN : r.1.wrappers.made ≤ N) :
    ∃ w m, wrapObjects allocate st.wrappers data offsets = (none, w, m) ∧
      walk (wrapObject allocate) (objectsIn data offsets) st.wrappers
        (parcelMemory data offsets) = (none, w, m) ∧ Adopted allocate w ∧
      WrappedAll allocate st.wrappers w (parcelMemory data offsets) m
        (bindersIn data offsets) ∧
      ∀ p ∈ objectsIn data offsets, objType m p = objType (parcelMemory data offsets) p := by
  have hap := h.placed.separate_positions
  have hwrap : wrapObjects allocate st.wrappers data offsets =
      walk (wrapObject allocate) (objectsIn data offsets) st.wrappers
        (parcelMemory data offsets) := wrapObjects_eq h st.wrappers
  obtain ⟨e, w₁, m₁, hw₁, hwrappers, -⟩ := of_sendParcel hsend
  have hmade := made_walk allocate hap st.wrappers (parcelMemory data offsets)
  rw [← hwrap, hw₁] at hmade
  rw [hwrappers, hmade] at hN
  obtain ⟨w, m, hw, hs', hall, htype⟩ := walk_wrap ha hap hs hN
  exact ⟨w, m, hwrap.trans hw, hw, hs', hall, htype⟩

theorem sendParcel_sent (ha : Addresses allocate N) (h : WellFormed data offsets) {st : Process}
    (hs : Adopted allocate st.wrappers) (hn : st.translator.Numbered)
    {r : Process × List ProcessEvent} (hsend : sendParcel allocate st data offsets true = some r)
    (hN : r.1.wrappers.made ≤ N) (hb : r.1.translator.nextObjectId ≤ 2 ^ 64) :
    ∃ m m', r.2 = sentBinders data offsets m' ∧ SentAll allocate data offsets st r.1 m m' := by
  have hap := h.placed.separate_positions
  obtain ⟨w, m, hfrom, hw, hs', hall, htype⟩ := wrapped_of_sendParcel ha h hs hsend hN
  have hoffsets := listedOffsets_of_wrapped h hw
  have hplaced : WellPlaced (parcel data offsets) m := by
    refine ⟨?_, ?_⟩ <;> rw [hoffsets]
    · exact h.placed.inside
    · exact h.placed.separate
  have hpositions : listedPositions (parcel data offsets) m = objectsIn data offsets := by
    rw [listedPositions, hoffsets, objectsIn, listedPositions]
  have hpass := (processObjects_eq (twoBuffers_parcel data offsets) hplaced
    (by rw [hoffsets]; exact h.low) .Out st.translator).2
  rw [hpositions] at hpass
  have hnone := walk_out_none hap (t := st.translator) (m := m) fun p hp => by
    rw [htype p hp]
    exact h.typed p hp
  have hbinders : ∀ p ∈ bindersIn data offsets,
      p ∈ objectsIn data offsets ∧ objType m p = some .binder := by
    intro p hp
    obtain ⟨hmem, hbinder⟩ := List.mem_filter.mp hp
    exact ⟨hmem, (htype p hmem).trans (by simpa using hbinder)⟩
  obtain ⟨_, _, _, hwrapped, -, hr⟩ := of_sendParcel hsend
  cases hfrom.symm.trans hwrapped
  simp only [hpass, true_and, if_true] at hr
  subst hr
  refine ⟨m, _, rfl, hs', hall, numbered_walk_out hn hb, kept_walk .Out _ _ _,
    fun p hp => ?_, fun id object hl => ?_⟩
  · obtain ⟨hmem, hbinder⟩ := hbinders p hp
    exact (translated_of_walk_out hap hn hnone hb p hmem).cookie hbinder
  · refine (entry_walk_out hap hn hb hl).imp_right ?_
    rintro ⟨p, hp, hbinder, -, hid⟩
    refine ⟨p, List.mem_filter.mpr ⟨hp, ?_⟩, hid⟩
    rw [← htype p hp]
    simpa using hbinder

end Parcel

/-! ### Runs -/

section Forall₂

variable {α β γ : Type} {R : α → β → Prop} {l : List α} {l' : List β}

theorem exists_of_forall₂ (h : List.Forall₂ R l l') {a : α} (ha : a ∈ l) : ∃ b ∈ l', R a b := by
  induction h with
  | nil => cases ha
  | cons hr _ ih =>
    rcases List.mem_cons.mp ha with rfl | ha
    · exact ⟨_, by simp, hr⟩
    · obtain ⟨b, hb, hab⟩ := ih ha
      exact ⟨b, by simp [hb], hab⟩

theorem nodup_map_of_forall₂ (h : List.Forall₂ R l l') (hn : l'.Nodup) {f : α → γ}
    (hf : ∀ a b a' b', R a b → R a' b' → f a = f a' → b = b') : (l.map f).Nodup := by
  induction h with
  | nil => exact .nil
  | @cons a b l l' hr hrest ih =>
    obtain ⟨hb, hn⟩ := List.nodup_cons.mp hn
    refine List.nodup_cons.mpr ⟨fun hmem => ?_, ih hn⟩
    obtain ⟨a', ha', heq⟩ := List.mem_map.mp hmem
    obtain ⟨b', hb', hr'⟩ := exists_of_forall₂ hrest ha'
    exact hb (hf _ _ _ _ hr' hr heq ▸ hb')

end Forall₂

/-- The `IBinder`s that were sent, and their ids. -/
def sentPairs (es : List ProcessEvent) : List (ℕ × ℕ) :=
  es.filterMap fun
    | .sent binder id => some (binder, id)
    | _ => none

theorem sentPairs_append (es es' : List ProcessEvent) :
    sentPairs (es ++ es') = sentPairs es ++ sentPairs es' := List.filterMap_append

theorem sentPairs_sentBinders (data : List UInt8) (offsets : List ℕ) (m : Mem) :
    sentPairs (sentBinders data offsets m) =
      (bindersIn data offsets).map fun p =>
        (objCookie (parcelMemory data offsets) p, objCookie m p) := by
  simp only [sentPairs, sentBinders, List.filterMap_map]
  exact congrFun List.filterMap_eq_map _

/-- The parcels are in order. -/
def Proper (e : ProcessStep) : Prop :=
  match e.action with
  | .transact data offsets => WellFormed data offsets
  | .execute _ _ response => WellFormed response.data response.offsets

instance (e : ProcessStep) : Decidable (Proper e) := by
  unfold Proper
  split <;> infer_instance

/-- The `n`-th wrapper is the way from an id to the `IBinder`. -/
structure Reaches (allocate : ℕ → ℕ) (st : Process) (s : ℕ × ℕ) (n : ℕ) : Prop where
  made : n < st.wrappers.made
  entered : st.translator.objects.lookup s.2 = some (allocate n)
  wrapped : st.wrappers.wrapped (allocate n) = some s.1

/-- What is known after the events `es`. -/
structure Tracked (allocate : ℕ → ℕ) (es : List ProcessEvent) (st : Process) : Prop where
  adopted : Adopted allocate st.wrappers
  numbered : st.translator.Numbered
  reached : ∃ ns : List ℕ, ns.Nodup ∧ List.Forall₂ (Reaches allocate st) (sentPairs es) ns
  entries : ∀ id object, st.translator.objects.lookup id = some object →
    ∃ binder, (binder, id) ∈ sentPairs es

section Tracked

variable {allocate : ℕ → ℕ} {N : ℕ} {es : List ProcessEvent} {st st' : Process}
  {data : List UInt8} {offsets : List ℕ} {m m' : Mem}

theorem Reaches.kept {s : ℕ × ℕ} {n : ℕ} (h : Reaches allocate st s n)
    (hmade : st.wrappers.made ≤ st'.wrappers.made) (hk : Kept st.translator st'.translator)
    (hw : ∀ n < st.wrappers.made,
      st'.wrappers.wrapped (allocate n) = st.wrappers.wrapped (allocate n)) :
    Reaches allocate st' s n :=
  ⟨h.made.trans_le hmade, hk _ _ h.entered, (hw n h.made).trans h.wrapped⟩

theorem Tracked.sent (h : Tracked allocate es st)
    (hs : SentAll allocate data offsets st st' m m') :
    Tracked allocate (es ++ sentBinders data offsets m') st' where
  adopted := hs.adopted
  numbered := hs.numbered
  reached := by
    obtain ⟨ns, hnodup, hreached⟩ := h.reached
    have hmade := hs.wrapped.made
    have hold := hreached.imp fun s n hr => hr.kept (by omega) hs.kept hs.wrapped.kept
    have hnew := (List.forall₂_and_left _ _).mpr ⟨hs.entered, hs.wrapped.each⟩
    have hlt : ∀ n ∈ ns, n < st.wrappers.made := by
      intro n hn
      obtain ⟨s, -, hr⟩ := exists_of_forall₂ hreached.flip hn
      exact hr.made
    refine ⟨ns ++ List.range' st.wrappers.made (bindersIn data offsets).length, ?_, ?_⟩
    · refine List.nodup_append.mpr ⟨hnodup, List.nodup_range', fun n hn n' hn' => ?_⟩
      have h1 := hlt n hn
      have h2 := List.mem_range'_1.mp hn'
      omega
    · rw [sentPairs_append, sentPairs_sentBinders]
      refine List.rel_append hold (List.forall₂_map_left_iff.mpr (hnew.imp ?_))
      rintro p n ⟨hl, hc, hn, hw⟩
      exact ⟨hn, hc ▸ hl, hw⟩
  entries id object hl := by
    rw [sentPairs_append, sentPairs_sentBinders]
    rcases hs.entries id object hl with hl | ⟨p, hp, hid⟩
    · obtain ⟨binder, hmem⟩ := h.entries id object hl
      exact ⟨binder, List.mem_append_left _ hmem⟩
    · exact ⟨_, List.mem_append_right _ (List.mem_map.mpr ⟨p, hp, by rw [hid]⟩)⟩

theorem Tracked.congr (h : Tracked allocate es st) {es' : List ProcessEvent}
    (hes : sentPairs es' = sentPairs es) : Tracked allocate es' st :=
  ⟨h.adopted, h.numbered, hes ▸ h.reached, hes ▸ h.entries⟩

/-- A response with an error is wrapped, but not sent. -/
theorem Tracked.notSent (h : Tracked allocate es st) {w : Wrappers} {bs : List ℕ}
    (hs : Adopted allocate w) (hall : WrappedAll allocate st.wrappers w m m' bs) :
    Tracked allocate es { st with wrappers := w } := by
  obtain ⟨ns, hnodup, hreached⟩ := h.reached
  have hmade := hall.made
  have hle : st.wrappers.made ≤ w.made := by omega
  exact ⟨hs, h.numbered, ⟨ns, hnodup, hreached.imp fun s n hr =>
    hr.kept hle (.refl _) hall.kept⟩, h.entries⟩

theorem Tracked.sendParcel (h : Tracked allocate es st) (ha : Addresses allocate N)
    (hw : WellFormed data offsets) {isSent : Bool} {r : Process × List ProcessEvent}
    (hsend : sendParcel allocate st data offsets isSent = some r)
    (hN : r.1.wrappers.made ≤ N) (hb : r.1.translator.nextObjectId ≤ 2 ^ 64) :
    Tracked allocate (es ++ r.2) r.1 := by
  cases isSent with
  | true =>
    obtain ⟨m, m', heq, hs⟩ := sendParcel_sent ha hw h.adopted h.numbered hsend hN hb
    rw [heq]
    exact h.sent hs
  | false =>
    obtain ⟨w, m, hfrom, -, hs, hall, -⟩ := wrapped_of_sendParcel ha hw h.adopted hsend hN
    obtain ⟨_, _, _, hwrapped, -, rfl⟩ := of_sendParcel hsend
    cases hfrom.symm.trans hwrapped
    simp only [Bool.false_eq_true, and_false, if_false, List.append_nil]
    exact h.notSent hs hall

/-- The contents that an `IBinder` is handed. -/
def handed (st : Process) (request : TransactionData) (msg : Message) (beyond : List UInt8) :
    Contents :=
  contents request (processObjects .In request st.translator (receivedMemory msg beyond)).2.2

/-- What a step that executes a Transaction does. -/
inductive Executed (allocate : ℕ → ℕ) (st : Process) (msg : Message) (beyond : List UInt8)
    (response : Response) : Process → List ProcessEvent → Prop
  | refused {e} : fromMessage msg.data = .error e → Executed allocate st msg beyond response st []
  | unknown {request} : fromMessage msg.data = .ok request →
      findObject ⟨st.translator, st.wrappers.pool, none⟩ st.translator request = none →
      Executed allocate st msg beyond response st []
  | crashed {request obj} : fromMessage msg.data = .ok request →
      findObject ⟨st.translator, st.wrappers.pool, none⟩ st.translator request = some obj →
      st.wrappers.wrapped obj = some 0 →
      Executed allocate st msg beyond response st [.crashed (handed st request msg beyond)]
  | called {request obj binder r} : fromMessage msg.data = .ok request →
      findObject ⟨st.translator, st.wrappers.pool, none⟩ st.translator request = some obj →
      st.wrappers.wrapped obj = some binder → binder ≠ 0 →
      Wrapping.sendParcel allocate st response.data response.offsets (response.result = 0) =
        some r →
      Executed allocate st msg beyond response r.1
        (.called binder (handed st request msg beyond) :: r.2)

theorem processStep_execute {msg : Message} {beyond : List UInt8} {response : Response}
    {emitted : List ProcessEvent}
    (h : processStep allocate st (.execute msg beyond response) = some (st', emitted)) :
    Executed allocate st msg beyond response st' emitted := by
  simp only [processStep] at h
  split at h
  · next hm =>
    cases h
    exact .refused hm
  · next request hm =>
    split at h
    · cases h
    next m hpass =>
      obtain ⟨-, hr⟩ := of_processTransaction hpass
      have htranslator := state_processObjects_in request st.translator (receivedMemory msg beyond)
      rw [← hr] at htranslator
      simp only at htranslator
      subst htranslator
      have hhanded : handed st request msg beyond = contents request m := by rw [handed, ← hr]
      split at h
      · next hf =>
        cases h
        exact .unknown hm hf
      · next obj hf =>
        split at h
        · cases h
        · next hw =>
          cases h
          rw [← hhanded]
          exact .crashed hm hf hw
        · next binder hne hw =>
          obtain ⟨r, hsend, heq⟩ := Option.map_eq_some_iff.mp h
          cases heq
          rw [← hhanded]
          exact .called hm hf hw (fun h0 => hne (h0 ▸ rfl)) hsend

theorem made_sendParcel (hw : WellFormed data offsets) {isSent : Bool}
    {r : Process × List ProcessEvent}
    (hsend : Wrapping.sendParcel allocate st data offsets isSent = some r) :
    st.wrappers.made ≤ r.1.wrappers.made := by
  obtain ⟨e, w, m, hwrapped, hwrappers, -⟩ := of_sendParcel hsend
  have hmade := made_walk allocate hw.placed.separate_positions st.wrappers
    (parcelMemory data offsets)
  rw [← wrapObjects_eq hw, hwrapped] at hmade
  rw [hwrappers, hmade]
  exact Nat.le_add_right _ _

theorem next_sendParcel {isSent : Bool} {r : Process × List ProcessEvent}
    (hsend : Wrapping.sendParcel allocate st data offsets isSent = some r) :
    st.translator.nextObjectId ≤ r.1.translator.nextObjectId := by
  obtain ⟨e, w, m, -, -, rfl⟩ := of_sendParcel hsend
  split_ifs
  · have hcalls := Interning.calls_walkArray .Out (parcel data offsets).data.start
      (parcel data offsets).numObjectOffsets (parcel data offsets).objects.start st.translator m
    have hnext := hcalls.nextObjectId
    simp only [processObjects]
    omega
  · exact le_rfl

theorem le_of_step {e : ProcessStep} (hv : e.Valid (androidProcess allocate)) (hp : Proper e) :
    e.before.wrappers.made ≤ e.after.wrappers.made ∧
      e.before.translator.nextObjectId ≤ e.after.translator.nextObjectId := by
  obtain ⟨st, action, emitted, st'⟩ := e
  have hstep : processStep allocate st action = some (st', emitted) := hv
  cases action with
  | transact data offsets =>
    exact ⟨made_sendParcel hp hstep, next_sendParcel hstep⟩
  | execute msg beyond response =>
    cases processStep_execute hstep with
    | called _ _ _ _ hsend => exact ⟨made_sendParcel hp hsend, next_sendParcel hsend⟩
    | _ => exact ⟨le_rfl, le_rfl⟩

theorem Tracked.step {e : ProcessStep} (h : Tracked allocate es e.before)
    (ha : Addresses allocate N) (hv : e.Valid (androidProcess allocate)) (hp : Proper e)
    (hN : e.after.wrappers.made ≤ N) (hb : e.after.translator.nextObjectId ≤ 2 ^ 64) :
    Tracked allocate (es ++ e.emitted) e.after := by
  obtain ⟨st, action, emitted, st'⟩ := e
  have hstep : processStep allocate st action = some (st', emitted) := hv
  cases action with
  | transact data offsets =>
    exact h.sendParcel ha hp hstep hN hb
  | execute msg beyond response =>
    cases processStep_execute hstep with
    | called _ _ _ _ hsend =>
      refine (h.sendParcel ha hp hsend hN hb).congr ?_
      rw [sentPairs_append, sentPairs_append]
      rfl
    | crashed _ _ _ =>
      refine h.congr ?_
      rw [sentPairs_append]
      exact List.append_nil _
    | refused _ => exact h.congr (by rw [List.append_nil])
    | unknown _ _ => exact h.congr (by rw [List.append_nil])

theorem tracked_of_run {h : List ProcessStep} (hr : Run (androidProcess allocate) h st)
    (ha : Addresses allocate N) (hN : st.wrappers.made ≤ N)
    (hb : st.translator.nextObjectId ≤ 2 ^ 64) (hp : ∀ e ∈ h, Proper e) :
    Tracked allocate (outputs h) st := by
  induction hr with
  | nil =>
    refine ⟨⟨fun _ hn => absurd hn (Nat.not_lt_zero _), fun k hk => ?_⟩,
      ObjectTranslator.numbered_initial, ⟨[], .nil, .nil⟩, fun id object hl => ?_⟩
    · cases hk
    · cases (AList.lookup_empty id).symm.trans hl
  | @snoc h e _ hv ih =>
    have hproper := hp e (by simp)
    obtain ⟨hmade, hnext⟩ := le_of_step hv hproper
    have ht := (ih (hmade.trans hN) (hnext.trans hb) fun e he => hp e (by simp [he])).step ha hv
      hproper hN hb
    rwa [outputs_snoc]

/-- A parcel whose objects have data does not kill the process. -/
theorem exists_sendParcel (allocate : ℕ → ℕ) (hn : ¬ (parcel data offsets).ListsNull) (st : Process)
    (isSent : Bool) :
    ∃ r, Wrapping.sendParcel allocate st data offsets isSent = some r := by
  simp only [Wrapping.sendParcel, transactionDataFromParcel, if_neg hn]
  rcases wrapObjects allocate st.wrappers data offsets with ⟨_ | e, w, m⟩
  · simp only [processTransaction_eq_some hn, Option.map_some]
    cases isSent with
    | false => exact ⟨_, rfl⟩
    | true => exact ⟨_, rfl⟩
  · exact ⟨_, rfl⟩

theorem Tracked.findObject (h : Tracked allocate es st) (ha : Addresses allocate st.wrappers.made)
    (request : TransactionData) :
    (∀ binder, (binder, request.cookie) ∈ sentPairs es → ∃ object,
      findObject ⟨st.translator, st.wrappers.pool, none⟩ st.translator request = some object ∧
        st.wrappers.wrapped object = some binder) ∧
    ((∀ binder, (binder, request.cookie) ∉ sentPairs es) →
      findObject ⟨st.translator, st.wrappers.pool, none⟩ st.translator request = none) := by
  obtain ⟨ns, -, hreached⟩ := h.reached
  refine ⟨fun binder hmem => ?_, fun hnone => ?_⟩
  · obtain ⟨n, -, hn⟩ := exists_of_forall₂ hreached hmem
    refine ⟨allocate n, ?_, hn.wrapped⟩
    have hne := (ha.pos n hn.made).ne'
    simp only [Handlers.findObject, ObjectTranslator.translateCookie, hn.entered, Option.getD_some,
      hne, ne_eq, not_false_eq_true, if_true]
    exact h.adopted.found n hn.made
  · have hl : st.translator.objects.lookup request.cookie = none := by
      refine Option.eq_none_iff_forall_ne_some.mpr fun object hl => ?_
      obtain ⟨binder, hmem⟩ := h.entries _ _ hl
      exact hnone binder hmem
    simp [Handlers.findObject, ObjectTranslator.translateCookie, hl]

/-- The process survives a Transaction, and the response, unless objects are listed for no data. -/
theorem Tracked.exists_step (h : Tracked allocate es st)
    (ha : Addresses allocate st.wrappers.made) {msg : Message} {response : Response}
    {request : TransactionData} (hm : fromMessage msg.data = .ok request)
    (hn : ¬ request.ListsNull) (hw : WellFormed response.data response.offsets)
    (beyond : List UInt8) :
    ∃ r, processStep allocate st (.execute msg beyond response) = some r := by
  have htranslator := state_processObjects_in request st.translator (receivedMemory msg beyond)
  simp only [processStep, hm, processTransaction_eq_some hn, htranslator]
  by_cases hsent : ∃ binder, (binder, request.cookie) ∈ sentPairs es
  · obtain ⟨binder, hmem⟩ := hsent
    obtain ⟨object, hf, hwrapped⟩ := (h.findObject ha request).1 binder hmem
    simp only [hf, hwrapped]
    cases binder with
    | zero => exact ⟨_, rfl⟩
    | succ n =>
      obtain ⟨r, hr⟩ := exists_sendParcel allocate hw.placed.not_listsNull st
        (decide (response.result = 0))
      simp only [hr, Option.map_some]
      exact ⟨_, rfl⟩
  · rw [(h.findObject ha request).2 fun binder hmem => hsent ⟨binder, hmem⟩]
    exact ⟨_, rfl⟩

end Tracked

/-- Where the wrappers are. -/
def addressOf (n : ℕ) : ℕ := 0x1000 + 0x10 * n

theorem addresses_addressOf {n : ℕ} (hn : n < 2 ^ 32) : Addresses addressOf n where
  pos i _ := by simp [addressOf]
  lt i hi := by
    unfold addressOf
    omega
  inj i _ j _ heq := by
    unfold addressOf at heq
    omega

/-- An `IBinder` and a null pointer are sent, and the `IBinder` again. -/
def sentAgain : List ProcessAction :=
  [.transact (flatBinderObject .binder 0 1 0x7000 ++ flatBinderObject .binder 0 0 0) [0, 24],
    .transact (flatBinderObject .binder 0 1 0x7000) [0]]

/-- A Transaction for an id. -/
def transactionFor (id : ℕ) : Message :=
  { type := .transaction
    data := packTransaction { cookie := id, code := 5, data := ⟨0, 0⟩, objects := ⟨0, 0⟩ }
      (ofList []) }

end Binderd.Clients.Wrapping

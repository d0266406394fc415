import PartitionedFilters.FilterPointer

/-!
# Soundness of `FilterPointer`

The log of a life is clean up to the first `create` that throws while an
instance is held: that call destroys the instance and leaves the pointer to it
in place, and whatever comes next touches it again (`clean_life_iff`).
-/

namespace PartitionedFilters

open Lifecycle

variable {r : RegisterSize} {Obj : Type}

namespace FilterPointer

def bound (F : FilterClass) (instance? : Option Nat) : FilterPointer :=
  { instance?, iCtor := some F, iDtor := some F, iAddAll := some F, iContains := some F }

def FilterClass.supported (F : FilterClass) : Bool :=
  decide (1 ≤ F.k ∧ F.k ≤ 32) && (F.type == .Bloom || F.type == .Xor || F.type == .Cuckoo)

namespace Call

def succeeds (C : Filters r Obj) : Call r → Bool
  | .create type k s => FilterClass.supported { type, k } && (C.new { type, k } s).isSome
  | _ => false

/-- A `create` whose `k` or type is not supported, or whose filter cannot be constructed. -/
def fails (C : Filters r Obj) : Call r → Bool
  | .create type k s => !(FilterClass.supported { type, k } && (C.new { type, k } s).isSome)
  | _ => false

end Call

/-! ## What one call does -/

section
variable {α β : Type}

theorem get_apply (w : World Obj) : (get : Procedure Obj (World Obj)) w = .ok w w := rfl

theorem modify_apply (f : World Obj → World Obj) (w : World Obj) :
    (modify f : Procedure Obj Unit) w = .ok () (f w) :=
  rfl

theorem map_modify_apply (g : Unit → α) (f : World Obj → World Obj) (w : World Obj) :
    (g <$> modify f : Procedure Obj α) w = .ok (g ()) (f w) := rfl

theorem throw_apply (e : Exception) (w : World Obj) : (throw e : Procedure Obj α) w = .error e w := rfl

theorem pure_apply (a : α) (w : World Obj) : (pure a : Procedure Obj α) w = .ok a w := rfl

theorem bind_apply (x : Procedure Obj α) (f : α → Procedure Obj β) (w : World Obj) :
    (x >>= f) w = EStateM.bind x f w := rfl

end

section
variable {C : Filters r Obj} {w : World Obj} {type : FilterType} {k s i : Nat} {F : FilterClass}

theorem destroy_none (h : w.pointer.instance? = none) : destroy w = .ok () w := by
  simp [destroy, bind_apply, EStateM.bind, get_apply, h, pure_apply]

theorem destroy_some (h : w.pointer.instance? = some i) (hd : w.pointer.iDtor = some F) :
    destroy w = .ok () { w with events := w.events ++ [.released i F] } := by
  simp [destroy, bind_apply, EStateM.bind, get_apply, h, hd, call, pure_apply, log, modify_apply]

theorem bind_supported (h : FilterClass.supported F = true) :
    bind F w = .ok () { w with pointer := bound F w.pointer.instance? } := by
  obtain ⟨type, k⟩ := F
  cases type <;>
    simp_all [FilterClass.supported, bind, bound, modify_apply]

theorem create_unsupported {w' : World Obj} (hd : destroy w = .ok () w')
    (h : FilterClass.supported { type, k } = false) : (create C type k s).after w = w' := by
  by_cases hk : 1 ≤ k ∧ k ≤ 32
  · have hbind : ∃ e, bind { type, k } w' = .error e w' := by
      cases type <;> simp_all [FilterClass.supported, bind, throw_apply]
    obtain ⟨e, hbind⟩ := hbind
    simp [Procedure.after, create, bind_apply, EStateM.bind, hd, hk, hbind]
  · simp [Procedure.after, create, bind_apply, EStateM.bind, hd, hk, throw_apply]

theorem create_supported {w' : World Obj} (hd : destroy w = .ok () w')
    (h : FilterClass.supported { type, k } = true) :
    create C type k s w = construct C s { w' with pointer := bound { type, k } w'.pointer.instance? } := by
  have hk : 1 ≤ k ∧ k ≤ 32 := by simp_all [FilterClass.supported]
  simp [create, bind_apply, EStateM.bind, hd, hk, bind_supported h]

theorem create_constructor {w' : World Obj} (hd : destroy w = .ok () w')
    (h : FilterClass.supported { type, k } = true) (hn : C.new { type, k } s = none) :
    (create C type k s).after w = { w' with pointer := bound { type, k } w'.pointer.instance? } := by
  rw [Procedure.after, create_supported hd h]
  simp [construct, bind_apply, EStateM.bind, get_apply, call, bound, pure_apply, hn, throw_apply]

theorem create_constructs {w' : World Obj} {o : Obj} (hd : destroy w = .ok () w')
    (h : FilterClass.supported { type, k } = true) (hn : C.new { type, k } s = some o) :
    (create C type k s).after w =
      { pointer := bound { type, k } (some w'.heap.length), heap := w'.heap ++ [o]
        events := w'.events ++ [.acquired w'.heap.length { type, k }] } := by
  rw [Procedure.after, create_supported hd h]
  simp [construct, bind_apply, EStateM.bind, get_apply, call, bound, pure_apply, hn, log, modify_apply]

/-- A call of the other functions throws before it does anything, or uses the instance. -/
theorem perform_use (w : World Obj) {c : Call r} (hc : ∀ type k s, c ≠ .create type k s) :
    perform C w c = w ∨ ∃ i F heap, w.pointer.instance? = some i ∧ heap.length = w.heap.length ∧
      perform C w c = { w with heap := heap, events := w.events ++ [.used i F] } := by
  have hderef : (∃ e, deref w w = .error e w) ∨ ∃ i o, w.pointer.instance? = some i ∧ deref w w = .ok (i, o) w := by
    unfold deref
    cases hi : w.pointer.instance? with
    | none => exact .inl ⟨_, rfl⟩
    | some i =>
      cases ho : w.heap[i]? with
      | none => exact .inl ⟨.nullPointer, by simp only [ho]; rfl⟩
      | some o => exact .inr ⟨i, o, rfl, by simp only [ho]; rfl⟩
  cases c with
  | create type k s => exact absurd rfl (hc type k s)
  | addAll values =>
    cases hf : w.pointer.iAddAll with
    | none =>
      exact .inl
        (by simp [perform, Procedure.after, addAll, bind_apply, EStateM.bind, get_apply, hf, call, throw_apply])
    | some F =>
      rcases hderef with ⟨e, he⟩ | ⟨i, o, hi, he⟩
      · exact .inl
          (by simp [perform, Procedure.after, addAll, bind_apply, EStateM.bind, get_apply, hf, call, pure_apply,
            he])
      · refine .inr ⟨i, F, w.heap.set i (C.addAll F (C.init F o (BitVec.ofNat r.bits values.length)) values).2, hi,
          List.length_set, ?_⟩
        simp [perform, Procedure.after, addAll, bind_apply, EStateM.bind, get_apply, hf, call, pure_apply, he, log,
          modify_apply, map_modify_apply]
  | contains value =>
    cases hf : w.pointer.iContains with
    | none =>
      exact .inl
        (by simp [perform, Procedure.after, contains, bind_apply, EStateM.bind, get_apply, hf, call, throw_apply])
    | some F =>
      rcases hderef with ⟨e, he⟩ | ⟨i, o, hi, he⟩
      · exact .inl
          (by simp [perform, Procedure.after, contains, bind_apply, EStateM.bind, get_apply, hf, call, pure_apply,
            he])
      · refine .inr ⟨i, F, w.heap, hi, rfl, ?_⟩
        simp [perform, Procedure.after, contains, bind_apply, EStateM.bind, get_apply, hf, call, pure_apply, he,
          log, map_modify_apply]

end

/-! ## The invariants -/

/-- The pointer holds no instance, and none is left over. -/
structure Empty (w : World Obj) : Prop where
  instance? : w.pointer.instance? = none
  settled : Settled w.events w.heap.length

/-- The pointer holds the one live instance, with the functions of its own class. -/
structure Live (w : World Obj) : Prop where
  holding : ∃ i F, w.pointer.instance? = some i ∧ w.pointer.iDtor = some F ∧ Holding w.events w.heap.length i F

/-- The pointer is left at a destroyed instance, or has been. -/
structure Dangling (w : World Obj) : Prop where
  released : ∃ i F, w.pointer.instance? = some i ∧ w.pointer.iDtor = some F ∧
    (Released w.events i ∨ ¬ Ordered w.events)

section
variable {C : Filters r Obj} {w : World Obj} {c : Call r}

theorem Call.not_create (hs : c.succeeds C = false) (hf : c.fails C = false) (type : FilterType) (k s : Nat) :
    c ≠ .create type k s := by
  rintro rfl
  simp only [Call.succeeds] at hs
  simp [Call.fails, hs] at hf

theorem Call.create_of_fails (h : c.fails C = true) : ∃ type k s, c = .create type k s ∧
    (FilterClass.supported { type, k } = false ∨
      FilterClass.supported { type, k } = true ∧ C.new { type, k } s = none) := by
  cases c with
  | create type k s =>
    refine ⟨type, k, s, rfl, ?_⟩
    cases hsup : FilterClass.supported { type, k } with
    | false => exact .inl rfl
    | true =>
      right
      simpa [Call.fails, hsup] using h
  | addAll values => cases h
  | contains value => cases h

theorem Call.create_of_succeeds (h : c.succeeds C = true) : ∃ type k s o, c = .create type k s ∧
    FilterClass.supported { type, k } = true ∧ C.new { type, k } s = some o := by
  cases c with
  | create type k s =>
    simp only [Call.succeeds, Bool.and_eq_true] at h
    obtain ⟨o, ho⟩ := Option.isSome_iff_exists.mp h.2
    exact ⟨type, k, s, o, rfl, h.1, ho⟩
  | addAll values => cases h
  | contains value => cases h

/-- Where `create` throws, it has destroyed the instance and left the pointer as it was. -/
theorem perform_fails {w' : World Obj} (hd : destroy w = .ok () w') (h : c.fails C = true) :
    (perform C w c).events = w'.events ∧ (perform C w c).heap = w'.heap ∧
      (perform C w c).pointer.instance? = w'.pointer.instance? ∧
      ((perform C w c).pointer.iDtor = w'.pointer.iDtor ∨ ∃ F, (perform C w c).pointer.iDtor = some F) := by
  obtain ⟨type, k, s, rfl, hsup | ⟨hsup, hn⟩⟩ := Call.create_of_fails h
  · rw [perform, create_unsupported hd hsup]
    exact ⟨rfl, rfl, rfl, .inl rfl⟩
  · rw [perform, create_constructor hd hsup hn]
    exact ⟨rfl, rfl, rfl, .inr ⟨_, rfl⟩⟩

theorem perform_succeeds {w' : World Obj} (hd : destroy w = .ok () w') (h : c.succeeds C = true)
    (hs : Settled w'.events w'.heap.length) : Live (perform C w c) := by
  obtain ⟨type, k, s, o, rfl, hsup, hn⟩ := Call.create_of_succeeds h
  rw [perform, create_constructs hd hsup hn]
  exact ⟨_, _, rfl, rfl, by simpa using hs.acquire { type, k }⟩

/-! ## Steps -/

theorem Empty.perform_fails (h : Empty w) (hf : c.fails C = true) : Empty (perform C w c) := by
  obtain ⟨he, hh, hi, -⟩ := FilterPointer.perform_fails (destroy_none h.instance?) hf
  exact ⟨by rw [hi, h.instance?], by rw [he, hh]; exact h.settled⟩

theorem Empty.perform_succeeds (h : Empty w) (hs : c.succeeds C = true) : Live (perform C w c) :=
  FilterPointer.perform_succeeds (destroy_none h.instance?) hs h.settled

theorem Empty.perform_use (h : Empty w) (hc : ∀ type k s, c ≠ .create type k s) : Empty (perform C w c) := by
  rcases FilterPointer.perform_use (C := C) w hc with he | ⟨i, F, heap, hi, -⟩
  · rw [he]
    exact h
  · rw [h.instance?] at hi
    cases hi

theorem Live.destroys (h : Live w) :
    ∃ w', destroy w = .ok () w' ∧ Settled w'.events w'.heap.length ∧ Dangling w' := by
  obtain ⟨i, F, hi, hd, hold⟩ := h.holding
  refine ⟨_, destroy_some hi hd, hold.release, ⟨i, F, hi, hd, .inl ⟨.released i F, ?_, ?_⟩⟩⟩
  · simp
  · simp [Event.releases, Event.isRelease, Event.id]

theorem Live.perform_succeeds (h : Live w) (hs : c.succeeds C = true) : Live (perform C w c) := by
  obtain ⟨w', hd, hset, -⟩ := h.destroys
  exact FilterPointer.perform_succeeds hd hs hset

theorem Live.perform_use (h : Live w) (hc : ∀ type k s, c ≠ .create type k s) : Live (perform C w c) := by
  obtain ⟨i, F, hi, hd, hold⟩ := h.holding
  rcases FilterPointer.perform_use (C := C) w hc with he | ⟨j, G, heap, hj, hlen, he⟩
  · rw [he]
    exact h
  · rw [he]
    rw [hi] at hj
    obtain rfl := Option.some.inj hj
    exact ⟨i, F, hi, hd, by rw [hlen]; exact hold.use G⟩

/-- The defect: the instance is destroyed, but the pointer stays. -/
theorem Live.perform_fails (h : Live w) (hf : c.fails C = true) : Dangling (perform C w c) := by
  obtain ⟨w', hd, -, i, F, hi, hF, hr⟩ := h.destroys
  obtain ⟨he, -, hi', hF'⟩ := FilterPointer.perform_fails hd hf
  rcases hF' with hF' | ⟨G, hF'⟩
  · exact ⟨i, F, by rw [hi', hi], by rw [hF', hF], by rw [he]; exact hr⟩
  · exact ⟨i, G, by rw [hi', hi], hF', by rw [he]; exact hr⟩

theorem Dangling.destroys (h : Dangling w) : ∃ w' i F, destroy w = .ok () w' ∧ w'.pointer.instance? = some i ∧
    w'.pointer.iDtor = some F ∧ ¬ Ordered w'.events := by
  obtain ⟨i, F, hi, hd, hr⟩ := h.released
  refine ⟨_, i, F, destroy_some hi hd, hi, hd, ?_⟩
  rcases hr with hr | hr
  · exact hr.not_ordered rfl []
  · exact fun hord => hr hord.of_append

theorem Dangling.perform (h : Dangling w) : Dangling (perform C w c) := by
  obtain ⟨w', i, F, hd, hi, hF, hord⟩ := h.destroys
  cases hs : c.succeeds C with
  | true =>
    obtain ⟨type, k, s, o, rfl, hsup, hn⟩ := Call.create_of_succeeds hs
    rw [FilterPointer.perform, create_constructs hd hsup hn]
    exact ⟨_, _, rfl, rfl, .inr fun hord' => hord hord'.of_append⟩
  | false =>
    cases hf : c.fails C with
    | true =>
      obtain ⟨he, -, hi', hF'⟩ := FilterPointer.perform_fails hd hf
      rw [← he] at hord
      rcases hF' with hF' | ⟨G, hF'⟩
      · exact ⟨i, F, by rw [hi', hi], by rw [hF', hF], .inr hord⟩
      · exact ⟨i, G, by rw [hi', hi], hF', .inr hord⟩
    | false =>
      rcases FilterPointer.perform_use (C := C) w (Call.not_create hs hf) with he | ⟨j, G, heap, hj, -, he⟩
      · rw [he]
        exact h
      · obtain ⟨i, F, hi, hd, hr⟩ := h.released
        rw [he]
        exact ⟨i, F, hi, hd, hr.imp (fun hr => hr.append _) fun hr hord => hr hord.of_append⟩

/-! ## Runs -/

theorem Dangling.run (h : Dangling w) (calls : List (Call r)) :
    Dangling (calls.foldl (FilterPointer.perform C) w) := by
  induction calls generalizing w with
  | nil => exact h
  | cons c calls ih => exact ih h.perform

/-- From an instance on, the run is clean up to the first `create` that throws. -/
theorem Live.run (h : Live w) (calls : List (Call r)) :
    if calls.any (Call.fails C) then Dangling (calls.foldl (FilterPointer.perform C) w)
    else Live (calls.foldl (FilterPointer.perform C) w) := by
  induction calls generalizing w with
  | nil => exact h
  | cons c calls ih =>
    rw [List.any_cons, List.foldl_cons]
    cases hf : c.fails C with
    | true => exact (h.perform_fails hf).run calls
    | false =>
      rw [Bool.false_or]
      apply ih
      cases hs : c.succeeds C with
      | true => exact h.perform_succeeds hs
      | false => exact h.perform_use (Call.not_create hs hf)

end

/-- No `create` that throws comes after one that succeeded. -/
def NoLateFailure (C : Filters r Obj) (calls : List (Call r)) : Prop :=
  calls.Pairwise fun a b => a.succeeds C = true → b.fails C = false

section
variable {C : Filters r Obj} {w : World Obj}

theorem Empty.run (h : Empty w) (calls : List (Call r)) :
    (NoLateFailure C calls ∧ (Empty (calls.foldl (perform C) w) ∨ Live (calls.foldl (perform C) w))) ∨
      ¬ NoLateFailure C calls ∧ Dangling (calls.foldl (perform C) w) := by
  induction calls generalizing w with
  | nil => exact .inl ⟨List.Pairwise.nil, .inl h⟩
  | cons c calls ih =>
    rw [List.foldl_cons]
    unfold NoLateFailure at ih ⊢
    rw [List.pairwise_cons]
    cases hs : c.succeeds C with
    | false =>
      have hw : Empty (perform C w c) := by
        cases hf : c.fails C with
        | true => exact h.perform_fails hf
        | false => exact h.perform_use (Call.not_create hs hf)
      simpa using ih hw
    | true =>
      have hrun := (h.perform_succeeds hs).run (C := C) calls
      by_cases hany : calls.any (Call.fails C) = true
      · rw [if_pos hany] at hrun
        refine .inr ⟨?_, hrun⟩
        rintro ⟨hall, -⟩
        obtain ⟨b, hb, hfail⟩ := List.any_eq_true.mp hany
        rw [hall b hb rfl] at hfail
        cases hfail
      · rw [if_neg hany] at hrun
        have hnone : ∀ b ∈ calls, b.fails C = false := by
          intro b hb
          rw [Bool.eq_false_iff]
          exact fun hfail => hany (List.any_eq_true.mpr ⟨b, hb, hfail⟩)
        refine .inl ⟨⟨fun b hb _ => hnone b hb, ?_⟩, .inr hrun⟩
        exact List.Pairwise.imp_of_mem (fun _ hb _ _ => hnone _ hb) (List.pairwise_of_forall fun _ _ => trivial)

end

theorem empty_init : Empty ({} : World Obj) := ⟨rfl, settled_nil⟩

/-- What is constructed is destroyed once, as what it is, and not touched afterwards, up to a late failure. -/
theorem clean_life_iff (C : Filters r Obj) (calls : List (Call r)) :
    Clean (life C calls).events ↔ NoLateFailure C calls := by
  unfold life
  rcases empty_init.run (C := C) calls with ⟨hno, h | h⟩ | ⟨hno, h⟩
  · refine ⟨fun _ => hno, fun _ => ?_⟩
    rw [Procedure.after, destroy_none h.instance?]
    exact h.settled.toClean
  · refine ⟨fun _ => hno, fun _ => ?_⟩
    obtain ⟨w', hd, hset, -⟩ := h.destroys
    rw [Procedure.after, hd]
    exact hset.toClean
  · obtain ⟨w', -, -, hd, -, -, hord⟩ := h.destroys
    rw [Procedure.after, hd]
    exact ⟨fun hclean => absurd hclean.ordered hord, fun hyes => absurd hyes hno⟩

/-- A Bloom filter is created, then one with `k = 0` is asked for: the destructor destroys the first one again. -/
theorem life_destroys_twice : ¬ Clean (life (r := ._32bit)
    { new := fun _ s => some s, init := fun _ o _ => o, addAll := fun _ o _ => (true, o),
      contains := fun _ _ _ => true }
    [.create .Bloom 8 100, .create .Bloom 0 100]).events := by
  intro h
  have h1 := h.releasedOnce 0 ⟨.Bloom, 8⟩ (by decide)
  revert h1
  unfold ReleasedOnce
  decide

end FilterPointer

end PartitionedFilters

import Mathlib.Algebra.BigOperators.Group.Finset.Basic
import Mathlib.Data.Sym.Sym2

/-!
# Items with two candidate buckets

A table gives every bucket the multiset of its items; `alt a x` is the other
bucket of the item `x` of bucket `a`. Moving an item to its other bucket does
not change its entry, the item with the unordered pair of its buckets, so a
chain of relocations is accounted for by the entries.
-/

namespace PartitionedFilters.Relocation

variable {ι φ : Type*}

def entry (alt : ι → φ → ι) (a : ι) (x : φ) : φ × Sym2 ι := (x, s(a, alt a x))

def entries (alt : ι → φ → ι) (dom : Finset ι) (t : ι → Multiset φ) : Multiset (φ × Sym2 ι) :=
  ∑ a ∈ dom, (t a).map (entry alt a)

variable {alt : ι → φ → ι} {dom : Finset ι} {t t' : ι → Multiset φ} {a : ι} {x y : φ}

theorem entry_alt (h : alt (alt a x) x = a) : entry alt (alt a x) x = entry alt a x := by
  rw [entry, entry, h, Sym2.eq_swap]

theorem entries_congr (h : ∀ a ∈ dom, t' a = t a) : entries alt dom t' = entries alt dom t :=
  Finset.sum_congr rfl fun a ha => by rw [h a ha]

theorem mem_entries {e : φ × Sym2 ι} : e ∈ entries alt dom t ↔ ∃ a ∈ dom, ∃ x ∈ t a, entry alt a x = e := by
  simp only [entries, Multiset.mem_sum, Multiset.mem_map]

theorem entries_change [DecidableEq ι] (ha : a ∈ dom) (hrest : ∀ b ∈ dom, b ≠ a → t' b = t b) :
    entries alt dom t' + (t a).map (entry alt a) = entries alt dom t + (t' a).map (entry alt a) := by
  have hsum : ∑ b ∈ dom.erase a, (t' b).map (entry alt b) = ∑ b ∈ dom.erase a, (t b).map (entry alt b) := by
    refine Finset.sum_congr rfl fun b hb => ?_
    rw [hrest b (Finset.mem_of_mem_erase hb) (Finset.ne_of_mem_erase hb)]
  rw [entries, entries, ← Finset.add_sum_erase dom _ ha, ← Finset.add_sum_erase dom _ ha, hsum]
  rw [add_comm ((t' a).map _), add_comm ((t a).map _), add_right_comm]

theorem entries_insert [DecidableEq ι] (ha : a ∈ dom) (h : t' a = x ::ₘ t a)
    (hrest : ∀ b ∈ dom, b ≠ a → t' b = t b) :
    entries alt dom t' = entry alt a x ::ₘ entries alt dom t := by
  have hc : entries alt dom t' + (t a).map (entry alt a) = entries alt dom t + (t' a).map (entry alt a) :=
    entries_change ha hrest
  rw [h, Multiset.map_cons, Multiset.add_cons, ← Multiset.cons_add] at hc
  exact add_right_cancel hc

theorem entries_replace [DecidableEq ι] (ha : a ∈ dom) (h : y ::ₘ t' a = x ::ₘ t a)
    (hrest : ∀ b ∈ dom, b ≠ a → t' b = t b) :
    entry alt a y ::ₘ entries alt dom t' = entry alt a x ::ₘ entries alt dom t := by
  have hc : entries alt dom t' + (t a).map (entry alt a) = entries alt dom t + (t' a).map (entry alt a) :=
    entries_change ha hrest
  have hm := congrArg (Multiset.map (entry alt a)) h
  rw [Multiset.map_cons, Multiset.map_cons] at hm
  refine add_right_cancel (b := (t a).map (entry alt a)) ?_
  rw [Multiset.cons_add, hc, ← Multiset.add_cons, hm, Multiset.add_cons, Multiset.cons_add]

/-- An item whose entry is there lies in one of its two buckets. -/
theorem mem_or_mem_alt (h : entry alt a x ∈ entries alt dom t) : x ∈ t a ∨ x ∈ t (alt a x) := by
  obtain ⟨b, -, y, hy, he⟩ := mem_entries.mp h
  obtain ⟨rfl, hs⟩ := Prod.mk.inj he
  rcases Sym2.eq_iff.mp hs with ⟨rfl, -⟩ | ⟨rfl, -⟩
  · exact .inl hy
  · exact .inr hy

/-! ## Chains of relocations -/

/-- The item `x` is on its way to bucket `a`; with it the entries are `total`. -/
structure Carries (alt : ι → φ → ι) (dom : Finset ι) (total : Multiset (φ × Sym2 ι)) (t : ι → Multiset φ)
    (a : ι) (x : φ) : Prop where
  mem : a ∈ dom
  entries_eq : entry alt a x ::ₘ entries alt dom t = total

variable {total : Multiset (φ × Sym2 ι)}

theorem Carries.place [DecidableEq ι] (h : Carries alt dom total t a x) (ht : t' a = x ::ₘ t a)
    (hrest : ∀ b ∈ dom, b ≠ a → t' b = t b) : entries alt dom t' = total := by
  rw [entries_insert h.mem ht hrest, h.entries_eq]

/-- The item takes the place of `y`, which moves on to its other bucket. -/
theorem Carries.swap [DecidableEq ι] (h : Carries alt dom total t a x) (ht : y ::ₘ t' a = x ::ₘ t a)
    (hrest : ∀ b ∈ dom, b ≠ a → t' b = t b) (hdom : alt a y ∈ dom) (hinv : alt (alt a y) y = a) :
    Carries alt dom total t' (alt a y) y :=
  ⟨hdom, by rw [entry_alt hinv, entries_replace h.mem ht hrest, h.entries_eq]⟩

/-- The item is placed, and `y` gives up its place in another bucket and moves on to its own other one. -/
theorem Carries.displace [DecidableEq ι] {b : ι} (h : Carries alt dom total t a x) (hb : b ∈ dom) (hab : a ≠ b)
    (ha : t' a = x ::ₘ t a) (hy : y ::ₘ t' b = t b) (hrest : ∀ d ∈ dom, d ≠ a → d ≠ b → t' d = t d)
    (hdom : alt b y ∈ dom) (hinv : alt (alt b y) y = b) : Carries alt dom total t' (alt b y) y := by
  have hplace : entries alt dom (Function.update t a (x ::ₘ t a)) = total :=
    h.place (Function.update_self ..) fun d _ hda => Function.update_of_ne hda _ _
  have hyield : entries alt dom (Function.update t a (x ::ₘ t a)) = entry alt b y ::ₘ entries alt dom t' := by
    refine entries_insert hb ?_ fun d hd hdb => ?_
    · rw [Function.update_of_ne hab.symm, hy]
    · by_cases hda : d = a
      · rw [hda, Function.update_self, ha]
      · rw [Function.update_of_ne hda, hrest d hd hda hdb]
  exact ⟨hdom, by rw [entry_alt hinv, ← hyield, hplace]⟩

/-- An item that is neither in `a` nor placed there may try its other bucket. -/
theorem Carries.alternate (h : Carries alt dom total t a x) (hdom : alt a x ∈ dom) (hinv : alt (alt a x) x = a) :
    Carries alt dom total t (alt a x) x :=
  ⟨hdom, by rw [entry_alt hinv, h.entries_eq]⟩

end PartitionedFilters.Relocation

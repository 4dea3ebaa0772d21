import Mathlib.Data.Finmap
import Mathlib.Data.Finset.Card

/-!
Content-addressed storage in general. A scheme gives every value the address
it is kept at and the content kept there; pinning a value writes its content
to its address, over whatever was there. On values whose contents are decided
by their addresses, pinning is as good as adding to a set: order and
repetition do not matter, and nothing pinned is lost.
-/

namespace ContentAddressed

/-- The address and the content of a value. -/
structure Scheme (α κ β : Type*) where
  address : α → κ
  content : α → β

namespace Scheme

variable {α κ β : Type*} (c : Scheme α κ β)

/-- Among these values, those with one address have one content. -/
def Coherent (S : Set α) : Prop :=
  ∀ a ∈ S, ∀ b ∈ S, c.address a = c.address b → c.content a = c.content b

variable {c}

theorem Coherent.mono {S T : Set α} (hT : c.Coherent T) (h : S ⊆ T) : c.Coherent S :=
  fun a ha b hb => hT a (h ha) b (h hb)

theorem coherent_of_injOn {S : Set α} (h : Set.InjOn c.address S) : c.Coherent S := by
  intro a ha b hb hab
  rw [h ha hb hab]

variable [DecidableEq κ] (c)

def pin (m : Finmap fun _ : κ => β) (a : α) : Finmap fun _ : κ => β :=
  m.insert (c.address a) (c.content a)

def pinAll (m : Finmap fun _ : κ => β) (l : List α) : Finmap fun _ : κ => β :=
  l.foldl c.pin m

variable {c} {m : Finmap fun _ : κ => β} {a : α} {k : κ} {v : β} {l l' : List α}

/-! ### One value -/

@[simp] theorem lookup_pin_self : (c.pin m a).lookup (c.address a) = some (c.content a) :=
  Finmap.lookup_insert m

theorem lookup_pin_of_ne (h : k ≠ c.address a) : (c.pin m a).lookup k = m.lookup k :=
  Finmap.lookup_insert_of_ne m h

@[simp] theorem mem_pin : k ∈ c.pin m a ↔ k = c.address a ∨ k ∈ m :=
  Finmap.mem_insert

/-! ### A list of values -/

@[simp] theorem pinAll_nil : c.pinAll m [] = m := rfl

@[simp] theorem pinAll_cons : c.pinAll m (a :: l) = c.pinAll (c.pin m a) l := rfl

theorem pinAll_append : c.pinAll m (l ++ l') = c.pinAll (c.pinAll m l) l' :=
  List.foldl_append

@[simp] theorem mem_pinAll : k ∈ c.pinAll m l ↔ k ∈ m ∨ ∃ a ∈ l, c.address a = k := by
  induction l generalizing m with
  | nil => simp
  | cons a l ih =>
      rw [pinAll_cons, ih, mem_pin]
      constructor
      · rintro ((rfl | h) | ⟨b, hb, hk⟩)
        · exact .inr ⟨a, List.mem_cons_self, rfl⟩
        · exact .inl h
        · exact .inr ⟨b, List.mem_cons_of_mem a hb, hk⟩
      · rintro (h | ⟨b, hb, hk⟩)
        · exact .inl (.inr h)
        · rcases List.mem_cons.mp hb with rfl | hb
          · exact .inl (.inl hk.symm)
          · exact .inr ⟨b, hb, hk⟩

theorem lookup_pinAll_of_forall_ne (h : ∀ a ∈ l, c.address a ≠ k) :
    (c.pinAll m l).lookup k = m.lookup k := by
  induction l generalizing m with
  | nil => rfl
  | cons a l ih =>
      rw [pinAll_cons, ih fun b hb => h b (List.mem_cons_of_mem a hb)]
      exact lookup_pin_of_ne (h a List.mem_cons_self).symm

theorem exists_of_lookup_pinAll (h : (c.pinAll m l).lookup k = some v) :
    m.lookup k = some v ∨ ∃ a ∈ l, c.address a = k ∧ c.content a = v := by
  induction l generalizing m with
  | nil => exact .inl h
  | cons a l ih =>
      rcases ih h with hm | ⟨b, hb, hbv⟩
      · by_cases hk : k = c.address a
        · subst hk
          rw [lookup_pin_self] at hm
          exact .inr ⟨a, List.mem_cons_self, rfl, Option.some.inj hm⟩
        · rw [lookup_pin_of_ne hk] at hm
          exact .inl hm
      · exact .inr ⟨b, List.mem_cons_of_mem a hb, hbv⟩

theorem keys_pinAll_empty : (c.pinAll ∅ l).keys = (l.map c.address).toFinset := by
  ext k
  rw [Finmap.mem_keys, mem_pinAll, List.mem_toFinset, List.mem_map]
  exact or_iff_right Finmap.notMem_empty

/-! ### The latest values

Without coherence an address holds whatever was pinned there last. -/

variable (c) in
/-- The last value of the list with the address of `a`. -/
def latest (l : List α) (a : α) : α :=
  (l.reverse.find? fun b => c.address b = c.address a).getD a

theorem latest_append_singleton {b : α} :
    c.latest (l ++ [b]) a = if c.address b = c.address a then b else c.latest l a := by
  rw [latest, List.reverse_append, List.reverse_singleton, List.singleton_append, List.find?_cons]
  by_cases h : c.address b = c.address a
  · rw [if_pos h, decide_eq_true h]
    rfl
  · rw [if_neg h, decide_eq_false h]
    rfl

theorem latest_congr {κ' β' : Type*} [DecidableEq κ'] {c' : Scheme α κ' β'}
    (h : ∀ a b, c.address a = c.address b ↔ c'.address a = c'.address b) :
    c.latest l a = c'.latest l a := by
  unfold latest
  simp only [h]

theorem exists_eq_append_latest (ha : a ∈ l) :
    ∃ before last after, l = before ++ last :: after ∧ c.latest l a = last ∧
      c.address last = c.address a ∧ ∀ b ∈ after, c.address b ≠ c.address a := by
  induction l using List.reverseRecOn with
  | nil => cases ha
  | append_singleton l b ih =>
      rw [latest_append_singleton]
      by_cases hb : c.address b = c.address a
      · rw [if_pos hb]
        exact ⟨l, b, [], rfl, rfl, hb, nofun⟩
      · have hal : a ∈ l := by
          rcases List.mem_append.mp ha with ha | ha
          · exact ha
          · rw [List.mem_singleton.mp ha] at hb
            exact absurd rfl hb
        obtain ⟨before, last, after, hl, hlast, haddress, hafter⟩ := ih hal
        rw [if_neg hb]
        refine ⟨before, last, after ++ [b], ?_, hlast, haddress, ?_⟩
        · rw [hl, List.append_assoc, List.cons_append]
        · intro b' hb'
          rcases List.mem_append.mp hb' with hb' | hb'
          · exact hafter b' hb'
          · rw [List.mem_singleton.mp hb']
            exact hb

variable (c) in
/-- Every value of the list finds the content of the latest one at its
address. -/
def Serves (m : Finmap fun _ : κ => β) (l : List α) : Prop :=
  ∀ a ∈ l, m.lookup (c.address a) = some (c.content (c.latest l a))

theorem serves_nil : c.Serves m [] := nofun

theorem Serves.pin (h : c.Serves m l) (a : α) : c.Serves (c.pin m a) (l ++ [a]) := by
  intro b hb
  rw [latest_append_singleton]
  by_cases hab : c.address a = c.address b
  -- `a` is now the latest at this address
  · rw [if_pos hab, ← hab]
    exact lookup_pin_self
  · have hbl : b ∈ l := by
      rcases List.mem_append.mp hb with hb | hb
      · exact hb
      · rw [List.mem_singleton.mp hb] at hab
        exact absurd rfl hab
    rw [if_neg hab, lookup_pin_of_ne (Ne.symm hab)]
    exact h b hbl

theorem serves_pinAll : c.Serves (c.pinAll m l) l := by
  induction l using List.reverseRecOn with
  | nil => exact serves_nil
  | append_singleton l a ih =>
      rw [pinAll_append]
      exact ih.pin a

theorem latest_eq_of_append {before after : List α} {b : α} (hb : c.address b = c.address a)
    (hafter : ∀ b' ∈ after, c.address b' ≠ c.address a) :
    c.latest (before ++ b :: after) a = b := by
  have hnone : (after.reverse.find? fun b' => c.address b' = c.address a) = none := by
    rw [List.find?_eq_none]
    intro b' hb'
    rw [decide_eq_true_iff]
    exact hafter b' (List.mem_reverse.mp hb')
  rw [latest, List.reverse_append, List.reverse_cons, List.append_assoc, List.find?_append, hnone,
    Option.none_or, List.singleton_append, List.find?_cons, decide_eq_true hb]
  rfl

/-! ### Coherent values -/

theorem lookup_pinAll_of_mem (hl : c.Coherent {a | a ∈ l}) (ha : a ∈ l) :
    (c.pinAll m l).lookup (c.address a) = some (c.content a) := by
  induction l generalizing m a with
  | nil => cases ha
  | cons b l ih =>
      have htail : c.Coherent {a | a ∈ l} := hl.mono fun _ => List.mem_cons_of_mem b
      by_cases hal : ∃ a' ∈ l, c.address a' = c.address a
      · obtain ⟨a', ha', haddress⟩ := hal
        rw [pinAll_cons, ← haddress, ih htail ha']
        exact congrArg some (hl a' (List.mem_cons_of_mem b ha') a ha haddress)
      · have hab : a = b := by
          rcases List.mem_cons.mp ha with rfl | ha
          · rfl
          · exact absurd ⟨a, ha, rfl⟩ hal
        subst hab
        rw [pinAll_cons, lookup_pinAll_of_forall_ne fun a' ha' h => hal ⟨a', ha', h⟩]
        exact lookup_pin_self

theorem pinAll_congr (hl : c.Coherent {a | a ∈ l}) (h : ∀ a, a ∈ l ↔ a ∈ l') :
    c.pinAll m l = c.pinAll m l' := by
  have hl' : c.Coherent {a | a ∈ l'} := hl.mono fun a => (h a).mpr
  apply Finmap.ext_lookup
  intro k
  by_cases hk : ∃ a ∈ l, c.address a = k
  · obtain ⟨a, ha, rfl⟩ := hk
    rw [lookup_pinAll_of_mem hl ha, lookup_pinAll_of_mem hl' ((h a).mp ha)]
  · have hne : ∀ a ∈ l, c.address a ≠ k := fun a ha hak => hk ⟨a, ha, hak⟩
    rw [lookup_pinAll_of_forall_ne hne, lookup_pinAll_of_forall_ne fun a ha => hne a ((h a).mpr ha)]

/-! ### The set a store stands for -/

variable (c) in
/-- The store holds the values of `S`, each at its address, and nothing else. -/
def Represents (m : Finmap fun _ : κ => β) (S : Set α) : Prop :=
  ∀ k v, m.lookup k = some v ↔ ∃ a ∈ S, c.address a = k ∧ c.content a = v

/-- Pinning a list into an empty store gives the set of its values. -/
theorem represents_pinAll (hl : c.Coherent {a | a ∈ l}) :
    c.Represents (c.pinAll ∅ l) {a | a ∈ l} := by
  intro k v
  constructor
  · intro h
    rcases exists_of_lookup_pinAll h with h | h
    · rw [Finmap.lookup_empty] at h
      cases h
    · exact h
  · rintro ⟨a, ha, rfl, rfl⟩
    exact lookup_pinAll_of_mem hl ha

end Scheme

end ContentAddressed

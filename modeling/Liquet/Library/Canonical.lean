import Mathlib.Algebra.Group.Nat.Defs
import Mathlib.Data.List.Sort
import Mathlib.Data.Set.Function

/-!
Canonical encodings in general. A code can be read off the front of a stream
when no two of its words agree with anything after them; such codes compose,
and a list of such words, none of them empty, gives away its entries without a
count. A table written by its rows in key order has one text, whatever order
the rows come in.
-/

namespace Canonical

variable {α β γ κ : Type*}

/-! ### Codes read off the front -/

/-- What the code writes for the values of `S` tells the value and the rest. -/
def Readable (encode : α → List γ) (S : Set α) : Prop :=
  ∀ a ∈ S, ∀ b ∈ S, ∀ rest rest', encode a ++ rest = encode b ++ rest' → a = b ∧ rest = rest'

namespace Readable

variable {encode : α → List γ} {S : Set α}

theorem of_length {n : ℕ} (hlength : ∀ a ∈ S, (encode a).length = n)
    (hinjective : Set.InjOn encode S) : Readable encode S := by
  intro a ha b hb rest rest' h
  obtain ⟨hword, hrest⟩ := List.append_inj h ((hlength a ha).trans (hlength b hb).symm)
  exact ⟨hinjective ha hb hword, hrest⟩

theorem append {f : α → List γ} {g : β → List γ} {T : Set β} (hf : Readable f S)
    (hg : Readable g T) : Readable (fun p : α × β => f p.1 ++ g p.2) {p | p.1 ∈ S ∧ p.2 ∈ T} := by
  rintro ⟨a, b⟩ ⟨ha, hb⟩ ⟨a', b'⟩ ⟨ha', hb'⟩ rest rest' h
  rw [List.append_assoc, List.append_assoc] at h
  obtain ⟨rfl, h⟩ := hf a ha a' ha' _ _ h
  obtain ⟨rfl, hrest⟩ := hg b hb b' hb' _ _ h
  exact ⟨rfl, hrest⟩

theorem comp {T : Set β} (h : Readable encode S) (f : β → α) (hmaps : Set.MapsTo f T S)
    (hinjective : Set.InjOn f T) : Readable (fun b => encode (f b)) T := by
  intro a ha b hb rest rest' hab
  obtain ⟨hvalue, hrest⟩ := h (f a) (hmaps ha) (f b) (hmaps hb) rest rest' hab
  exact ⟨hinjective ha hb hvalue, hrest⟩

theorem lengthPrefixed {prefixed : ℕ → List γ} {lengths : Set ℕ} (h : Readable prefixed lengths) :
    Readable (fun l : List γ => prefixed l.length ++ l) {l | l.length ∈ lengths} := by
  intro l hl l' hl' rest rest' heq
  rw [List.append_assoc, List.append_assoc] at heq
  obtain ⟨hlength, heq⟩ := h _ hl _ hl' _ _ heq
  exact List.append_inj heq hlength

theorem option {optional : Option α → List γ} {present absent : γ} (htag : present ≠ absent)
    (hsome : ∀ a, optional (some a) = present :: encode a) (hnone : optional none = [absent])
    (h : Readable encode S) : Readable optional {o | ∀ a, o = some a → a ∈ S} := by
  intro o ho o' ho' rest rest' heq
  cases o with
  | none =>
      cases o' with
      | none =>
          rw [hnone] at heq
          exact ⟨rfl, List.append_cancel_left heq⟩
      | some b =>
          rw [hnone, hsome] at heq
          exact absurd (List.cons.inj heq).1.symm htag
  | some a =>
      cases o' with
      | none =>
          rw [hnone, hsome] at heq
          exact absurd (List.cons.inj heq).1 htag
      | some b =>
          rw [hsome, hsome] at heq
          obtain ⟨rfl, hrest⟩ := h a (ho a rfl) b (ho' b rfl) _ _ (List.cons.inj heq).2
          exact ⟨rfl, hrest⟩

/-- A list written word by word, with neither a count before it nor an end
after it: where one list stops, the other has nothing left to write. -/
theorem flatMap (h : Readable encode S) (hne : ∀ a ∈ S, encode a ≠ []) :
    Set.InjOn (List.flatMap encode) {l | ∀ a ∈ l, a ∈ S} := by
  intro l
  induction l with
  | nil =>
      intro _ l' hl' heq
      cases l' with
      | nil => rfl
      | cons b l' =>
          rw [List.flatMap_nil, List.flatMap_cons] at heq
          exact absurd (List.append_eq_nil_iff.mp heq.symm).1 (hne b (hl' b List.mem_cons_self))
  | cons a l ih =>
      intro hl l' hl' heq
      cases l' with
      | nil =>
          rw [List.flatMap_nil, List.flatMap_cons] at heq
          exact absurd (List.append_eq_nil_iff.mp heq).1 (hne a (hl a List.mem_cons_self))
      | cons b l' =>
          rw [List.flatMap_cons, List.flatMap_cons] at heq
          obtain ⟨rfl, hrest⟩ :=
            h a (hl a List.mem_cons_self) b (hl' b List.mem_cons_self) _ _ heq
          rw [ih (fun c hc => hl c (List.mem_cons_of_mem a hc))
            (fun c hc => hl' c (List.mem_cons_of_mem a hc)) hrest]

end Readable

/-! ### Numbers in a fixed number of bytes -/

/-- A number in so many bytes, the least significant first. -/
def leBytes : ℕ → ℕ → List UInt8
  | 0, _ => []
  | k + 1, n => UInt8.ofNat n :: leBytes k (n / 256)

@[simp] theorem length_leBytes (k n : ℕ) : (leBytes k n).length = k := by
  induction k generalizing n with
  | zero => rfl
  | succ k ih => rw [leBytes, List.length_cons, ih]

theorem leBytes_injOn (k : ℕ) : Set.InjOn (leBytes k) {n | n < 256 ^ k} := by
  induction k with
  | zero =>
      intro m hm n hn _
      exact (Nat.lt_one_iff.mp hm).trans (Nat.lt_one_iff.mp hn).symm
  | succ k ih =>
      intro m hm n hn h
      -- the first byte is the remainder by 256 and the others are the quotient's
      obtain ⟨hlow, hhigh⟩ := List.cons.inj h
      have hmod : m % 256 = n % 256 := congrArg UInt8.toNat hlow
      have hdiv : m / 256 = n / 256 := by
        apply ih _ _ hhigh
        · exact Nat.div_lt_of_lt_mul (Nat.mul_comm _ _ ▸ hm)
        · exact Nat.div_lt_of_lt_mul (Nat.mul_comm _ _ ▸ hn)
      rw [← Nat.div_add_mod m 256, ← Nat.div_add_mod n 256, hdiv, hmod]

theorem readable_leBytes (k : ℕ) : Readable (leBytes k) {n | n < 256 ^ k} :=
  .of_length (fun n _ => length_leBytes k n) (leBytes_injOn k)

/-! ### Rows with distinct keys -/

theorem find?_key_eq_some_iff [DecidableEq κ] {key : α → κ} {rows : List α}
    (hkeys : (rows.map key).Nodup) {k : κ} {a : α} :
    rows.find? (fun row => key row = k) = some a ↔ a ∈ rows ∧ key a = k := by
  have hfound {row : α} (h : rows.find? (fun row => key row = k) = some row) :
      row ∈ rows ∧ key row = k :=
    ⟨List.mem_of_find?_eq_some h, by simpa using List.find?_some h⟩
  refine ⟨hfound, fun ⟨ha, hkey⟩ => ?_⟩
  cases h : rows.find? fun row => key row = k with
  | none => exact absurd hkey (by simpa using List.find?_eq_none.mp h a ha)
  | some row =>
      obtain ⟨hrow, hrowkey⟩ := hfound h
      rw [List.inj_on_of_nodup_map hkeys hrow ha (hrowkey.trans hkey.symm)]

section

variable [LE κ] [DecidableLE κ]

/-- The rows in the order of their keys. On distinct keys every way to sort
gives these. -/
def sortByKey (key : α → κ) (rows : List α) : List α :=
  rows.insertionSort fun a b => key a ≤ key b

theorem perm_sortByKey (key : α → κ) (rows : List α) : (sortByKey key rows).Perm rows :=
  List.perm_insertionSort _ _

theorem map_sortByKey {key : α → κ} {f : β → α} (rows : List β) :
    (sortByKey (fun b => key (f b)) rows).map f = sortByKey key (rows.map f) :=
  List.map_insertionSort _ _ f rows fun _ _ _ _ => Iff.rfl

variable [Std.IsLinearOrder κ]

theorem pairwise_sortByKey (key : α → κ) (rows : List α) :
    (sortByKey key rows).Pairwise fun a b => key a ≤ key b := by
  have : Std.Total fun a b : α => key a ≤ key b := ⟨fun a b => Std.le_total⟩
  have : IsTrans α fun a b => key a ≤ key b := ⟨fun a b c => Std.le_trans⟩
  exact List.pairwise_insertionSort _ rows

theorem pairwise_lt_sortByKey {key : α → κ} {rows : List α} [LT κ] [Std.LawfulOrderLT κ]
    (hkeys : (rows.map key).Nodup) : (sortByKey key rows).Pairwise fun a b => key a < key b := by
  have hdistinct : (sortByKey key rows).Pairwise fun a b => key a ≠ key b :=
    List.pairwise_map.mp (((perm_sortByKey key rows).map key).nodup_iff.mpr hkeys)
  refine ((pairwise_sortByKey key rows).and hdistinct).imp ?_
  rintro a b ⟨hle, hne⟩
  exact Std.lt_of_le_of_ne hle hne

theorem sortByKey_congr {key : α → κ} {rows rows' : List α} (hkeys : (rows.map key).Nodup)
    (h : rows.Perm rows') : sortByKey key rows = sortByKey key rows' := by
  apply List.Perm.eq_of_pairwise _ (pairwise_sortByKey key rows) (pairwise_sortByKey key rows')
    ((perm_sortByKey key rows).trans (h.trans (perm_sortByKey key rows').symm))
  -- rows that come no later than each other have one key, and so are one row
  intro a b ha hb hab hba
  have ha' : a ∈ rows := (perm_sortByKey key rows).mem_iff.mp ha
  have hb' : b ∈ rows := h.mem_iff.mpr ((perm_sortByKey key rows').mem_iff.mp hb)
  exact List.inj_on_of_nodup_map hkeys ha' hb' (Std.le_antisymm hab hba)

/-- A table has one text for each set of rows. -/
theorem flatMap_sortByKey_eq_iff {key : α → κ} {encode : α → List γ} {S : Set α}
    {rows rows' : List α} (hencode : Readable encode S) (hne : ∀ a ∈ S, encode a ≠ [])
    (hrows : ∀ a ∈ rows, a ∈ S) (hrows' : ∀ a ∈ rows', a ∈ S) (hkeys : (rows.map key).Nodup) :
    (sortByKey key rows).flatMap encode = (sortByKey key rows').flatMap encode ↔
      rows.Perm rows' := by
  constructor
  · intro h
    have hsorted : sortByKey key rows = sortByKey key rows' := by
      apply hencode.flatMap hne _ _ h
      · exact fun a ha => hrows a ((perm_sortByKey key rows).mem_iff.mp ha)
      · exact fun a ha => hrows' a ((perm_sortByKey key rows').mem_iff.mp ha)
    exact (perm_sortByKey key rows).symm.trans (hsorted ▸ perm_sortByKey key rows')
  · intro h
    rw [sortByKey_congr hkeys h]

end

end Canonical

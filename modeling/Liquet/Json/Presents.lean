import Mathlib.Data.List.Perm.Basic
import Liquet.Json.Derive

/-!
Other presentations of a JSON document: the members of its objects in another
order, and among them members of names that the format does not use. A derived
reader finds in each the value it finds in the document itself.
-/

namespace Liquet

mutual

/-- The second document presents the first: at every depth its objects have the
members of the first in some order, and besides only members of unknown names. -/
inductive Presents (known : List String) : Json → Json → Prop
  | null : Presents known .null .null
  | bool (b : Bool) : Presents known (.bool b) (.bool b)
  | num (literal : List Char) : Presents known (.num literal) (.num literal)
  | str (s : String) : Presents known (.str s) (.str s)
  | arr {vs vs'} (h : PresentsElems known vs vs') : Presents known (.arr vs) (.arr vs')
  | obj {ms ms' extra members} (h : PresentsMembers known ms ms')
      (hextra : ∀ m ∈ extra, m.1 ∉ known) (hperm : (ms' ++ extra).Perm members) :
      Presents known (.obj ms) (.obj members)
  | unpaired : Presents known .unpaired .unpaired

inductive PresentsElems (known : List String) : List Json → List Json → Prop
  | nil : PresentsElems known [] []
  | cons {v v' vs vs'} (h : Presents known v v') (hs : PresentsElems known vs vs') :
      PresentsElems known (v :: vs) (v' :: vs')

inductive PresentsMembers (known : List String) :
    List (String × Json) → List (String × Json) → Prop
  | nil : PresentsMembers known [] []
  | cons {k v v' ms ms'} (h : Presents known v v') (hs : PresentsMembers known ms ms') :
      PresentsMembers known ((k, v) :: ms) ((k, v') :: ms')

end

mutual

theorem Presents.refl {known : List String} : ∀ v : Json, Presents known v v
  | .null => .null
  | .bool b => .bool b
  | .num literal => .num literal
  | .str s => .str s
  | .arr vs => .arr (PresentsElems.refl vs)
  | .obj ms => .obj (PresentsMembers.refl ms) (List.forall_mem_nil _) (by rw [List.append_nil])
  | .unpaired => .unpaired

theorem PresentsElems.refl {known : List String} : ∀ vs : List Json, PresentsElems known vs vs
  | [] => .nil
  | v :: vs => .cons (Presents.refl v) (PresentsElems.refl vs)

theorem PresentsMembers.refl {known : List String} :
    ∀ ms : List (String × Json), PresentsMembers known ms ms
  | [] => .nil
  | (_, v) :: ms => .cons (Presents.refl v) (PresentsMembers.refl ms)

end

def PresentsFields (known : List String) (fields fields' : List (String × Json)) : Prop :=
  ∃ ms' extra, PresentsMembers known fields ms' ∧ (∀ m ∈ extra, m.1 ∉ known) ∧
    (ms' ++ extra).Perm fields'

section

variable {known : List String} {fields fields' : List (String × Json)} {j : Json}

theorem presents_obj (h : Presents known (.obj fields) j) :
    ∃ fields', j = .obj fields' ∧ PresentsFields known fields fields' := by
  cases h with
  | obj h hextra hperm => exact ⟨_, rfl, _, _, h, hextra, hperm⟩

theorem presents_str {s : String} (h : Presents known (.str s) j) : j = .str s := by
  cases h
  rfl

theorem presents_null {v : Json} (h : Presents known v .null) : v = .null := by
  cases h
  rfl

theorem presents_bool {b : Bool} (h : Presents known (.bool b) j) : j = .bool b := by
  cases h
  rfl

theorem PresentsMembers.occurrences {ms ms' : List (String × Json)}
    (h : PresentsMembers known ms ms') (name : String) :
    PresentsElems known (Codec.occurrences name ms) (Codec.occurrences name ms') := by
  induction ms generalizing ms' with
  | nil =>
      cases h
      exact .nil
  | cons m ms ih =>
      cases h with
      | @cons k v v' ms ms' h hs =>
          rw [Codec.occurrences_cons, Codec.occurrences_cons]
          by_cases hk : k = name
          · rw [if_pos hk, if_pos hk]
            exact .cons h (ih hs)
          · rw [if_neg hk, if_neg hk]
            exact ih hs

theorem PresentsFields.occurrences (h : PresentsFields known fields fields') {name : String}
    (hname : name ∈ known) :
    ∃ vs', PresentsElems known (Codec.occurrences name fields) vs' ∧
      vs'.Perm (Codec.occurrences name fields') := by
  obtain ⟨ms', extra, hmembers, hextra, hperm⟩ := h
  refine ⟨_, hmembers.occurrences name, ?_⟩
  have hnone : (extra.filter fun f => f.1 = name) = [] := by
    rw [List.filter_eq_nil_iff]
    intro m hm hmem
    have hm' := hextra m hm
    rw [of_decide_eq_true hmem] at hm'
    exact hm' hname
  have hfilter := (hperm.filter fun f => f.1 = name).map Prod.snd
  rw [List.filter_append, hnone, List.append_nil] at hfilter
  exact hfilter

theorem PresentsFields.occurrences_nil (h : PresentsFields known fields fields') {name : String}
    (hname : name ∈ known) (hnone : Codec.occurrences name fields = []) :
    Codec.occurrences name fields' = [] := by
  obtain ⟨vs', hvs, hperm⟩ := h.occurrences hname
  rw [hnone] at hvs
  cases hvs
  exact hperm.nil_eq.symm

theorem PresentsFields.occurrences_singleton (h : PresentsFields known fields fields')
    {name : String} (hname : name ∈ known) {v : Json}
    (hone : Codec.occurrences name fields = [v]) :
    ∃ v', Presents known v v' ∧ Codec.occurrences name fields' = [v'] := by
  obtain ⟨vs', hvs, hperm⟩ := h.occurrences hname
  rw [hone] at hvs
  cases hvs with
  | @cons _ v' _ _ h hs =>
      cases hs
      exact ⟨v', h, (List.perm_singleton.mp hperm.symm)⟩

theorem PresentsMembers.filter {ms ms' : List (String × Json)} (h : PresentsMembers known ms ms')
    (tag : String) :
    PresentsMembers known (ms.filter fun m => m.1 ≠ tag) (ms'.filter fun m => m.1 ≠ tag) := by
  induction ms generalizing ms' with
  | nil =>
      cases h
      exact .nil
  | cons m ms ih =>
      cases h with
      | @cons k v v' ms ms' h hs =>
          by_cases hk : k = tag
          · simpa [hk] using ih hs
          · simpa [hk] using PresentsMembers.cons h (ih hs)

theorem PresentsFields.filter (h : PresentsFields known fields fields') (tag : String) :
    PresentsFields known (fields.filter fun m => m.1 ≠ tag)
      (fields'.filter fun m => m.1 ≠ tag) := by
  obtain ⟨ms', extra, hmembers, hextra, hperm⟩ := h
  refine ⟨_, extra.filter fun m => m.1 ≠ tag, hmembers.filter tag, ?_, ?_⟩
  · exact fun m hm => hextra m (List.mem_of_mem_filter hm)
  · rw [← List.filter_append]
    exact hperm.filter _

/-- The tag of a variant is found wherever it stands, with the fields of the
variant left. -/
theorem PresentsFields.readTag (h : PresentsFields known fields fields') {tag s : String}
    (htag : tag ∈ known) (hone : Codec.occurrences tag fields = [.str s]) :
    ∃ content, Codec.readTag tag (.obj fields') = some (s, .obj content) ∧
      PresentsFields known (fields.filter fun m => m.1 ≠ tag) content := by
  obtain ⟨v', hv, hone'⟩ := h.occurrences_singleton htag hone
  rw [presents_str hv] at hone'
  refine ⟨fields'.filter fun m => m.1 ≠ tag, ?_, h.filter tag⟩
  simp only [Codec.readTag, hone']

end

theorem PresentsFields.defaulted {α : Type} {known : List String} {name : String}
    {fields fields' : List (String × Json)} (hfields : PresentsFields known fields fields')
    (hname : name ∈ known) (hnone : Codec.occurrences name fields = [])
    (read : Json → Option α) (default : α) :
    Codec.defaulted read default name fields' = some default := by
  rw [Codec.defaulted, hfields.occurrences_nil hname hnone]

/-! ### Readers -/

/-- The reader finds in every presentation of what is written for a value that
value. -/
def Lenient {α : Type} (known : List String) (write : α → Json) (read : Json → Option α) : Prop :=
  ∀ a j, Presents known (write a) j → read j = some a

namespace Lenient

open Codec

variable {α : Type} {known : List String} {write : α → Json} {read : Json → Option α}
  {fields fields' : List (String × Json)} {name : String} {a : α}

theorem string : Lenient known Json.str readString := by
  intro s j h
  rw [presents_str h]
  rfl

theorem bool : Lenient known Json.bool readBool := by
  intro b j h
  rw [presents_bool h]
  rfl

theorem unitEnum (names : α → String) (variants : List α)
    (h : ∀ a, variants.find? (fun b => names b = names a) = some a) :
    Lenient known (fun a => .str (names a)) (readUnit names variants) := by
  intro a j hj
  rw [presents_str hj]
  exact h a

theorem mapM_of_presents (h : Lenient known write read) {as : List α} {vs : List Json}
    (hs : PresentsElems known (as.map write) vs) : vs.mapM read = some as := by
  induction as generalizing vs with
  | nil =>
      cases hs
      rfl
  | cons a as ih =>
      cases hs with
      | cons hv hs => simp [List.mapM_cons, h a _ hv, ih hs]

theorem list (h : Lenient known write read) :
    Lenient known (fun as => .arr (as.map write)) (readList read) := by
  intro as j hj
  cases hj with
  | arr hs => exact h.mapM_of_presents hs

theorem readOption_of_ne_null {j : Json} (h : j ≠ .null) :
    readOption read j = (read j).map some := by
  cases j with
  | null => exact absurd rfl h
  | _ => rfl

theorem option (h : Lenient known write read) (hnull : ∀ a, write a ≠ .null) :
    Lenient known (writeOption write) (readOption read) := by
  intro o j hj
  cases o with
  | none =>
      cases hj
      rfl
  | some a =>
      have hne : j ≠ .null := by
        rintro rfl
        exact hnull a (presents_null hj)
      rw [readOption_of_ne_null hne, h a j hj, Option.map_some]

theorem required (h : Lenient known write read) (hfields : PresentsFields known fields fields')
    (hname : name ∈ known) (hone : occurrences name fields = [write a]) :
    required read name fields' = some a := by
  obtain ⟨v', hv, hone'⟩ := hfields.occurrences_singleton hname hone
  rw [Codec.required, hone']
  exact h a v' hv

theorem defaulted (h : Lenient known write read) (hfields : PresentsFields known fields fields')
    (hname : name ∈ known) (hone : occurrences name fields = [write a]) (default : α) :
    defaulted read default name fields' = some a := by
  obtain ⟨v', hv, hone'⟩ := hfields.occurrences_singleton hname hone
  rw [Codec.defaulted, hone']
  exact h a v' hv

theorem optional (h : Lenient known write read) (hnull : ∀ a, write a ≠ .null)
    (hfields : PresentsFields known fields fields') (hname : name ∈ known) {o : Option α}
    (hocc : occurrences name fields = if o.isNone then [] else [writeOption write o]) :
    Codec.defaulted (readOption read) none name fields' = some o := by
  cases o with
  | none => exact hfields.defaulted hname hocc _ _
  | some a => exact (h.option hnull).defaulted (a := some a) hfields hname hocc _

end Lenient

end Liquet

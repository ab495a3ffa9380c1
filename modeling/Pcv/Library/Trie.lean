import Mathlib.Data.List.Basic
import Mathlib.Data.List.Infix
import Mathlib.Tactic.Common

/-!
# Tries with ordered layers

A trie stores values under sequences of keys.  Its keys form layers: each key of a
layer has a value and a layer of its own below it.  Every key has a value, and
`valid` tells which of them are more than place holders.

The keys of a layer are tests rather than letters.  A search follows, in each
layer, the first key that is hit, and yields the last valid value on its way.  A
trie is `Separated` when no two keys of a layer can be hit by the same thing; then
a search finds the longest stored sequence whose keys are all hit.
-/

namespace Pcv

universe u v

/-- A layer of a trie: its first key, with the value and the layer below, and the
remaining keys of the layer. -/
inductive Trie (κ : Type u) (V : Type v)
  | nil
  | cons (key : κ) (value : V) (next rest : Trie κ V)

namespace Trie

variable {κ : Type u} {V : Type v}

/-- The keys of the layer. -/
def keys : Trie κ V → List κ
  | nil => []
  | cons k _ _ rest => k :: rest.keys

/-- Two layers in one. -/
def append : Trie κ V → Trie κ V → Trie κ V
  | nil, t => t
  | cons k v next rest, t => cons k v next (rest.append t)

/-- The path of the keys `ks`, with `last` at its end and `fill` before. -/
def path (fill : V) : List κ → V → Trie κ V
  | [], _ => nil
  | k :: ks, last => cons k (if ks = [] then last else fill) (path fill ks last) nil

@[simp] theorem keys_nil : (nil : Trie κ V).keys = [] := rfl

@[simp] theorem keys_cons (k : κ) (v : V) (next rest : Trie κ V) :
    (cons k v next rest).keys = k :: rest.keys := rfl

@[simp] theorem nil_append (t : Trie κ V) : nil.append t = t := rfl

@[simp] theorem cons_append (k : κ) (v : V) (next rest t : Trie κ V) :
    (cons k v next rest).append t = cons k v next (rest.append t) := rfl

@[simp] theorem append_nil (t : Trie κ V) : t.append nil = t := by
  induction t with
  | nil => rfl
  | cons k v next rest _ ih => simp [ih]

theorem append_assoc (a b c : Trie κ V) : (a.append b).append c = a.append (b.append c) := by
  induction a with
  | nil => rfl
  | cons k v next rest _ ih => simp [ih]

@[simp] theorem keys_append (a b : Trie κ V) : (a.append b).keys = a.keys ++ b.keys := by
  induction a with
  | nil => rfl
  | cons k v next rest _ ih => simp [ih]

theorem append_eq_nil {a b : Trie κ V} (h : a.append b = nil) : a = nil ∧ b = nil := by
  cases a with
  | nil => exact ⟨rfl, h⟩
  | cons => simp at h

/-- The number of layers that lie one below the other. -/
def depth : Trie κ V → ℕ
  | nil => 0
  | cons _ _ next rest => max (next.depth + 1) rest.depth

@[simp] theorem depth_nil : (nil : Trie κ V).depth = 0 := rfl

@[simp] theorem depth_cons (k : κ) (v : V) (next rest : Trie κ V) :
    (cons k v next rest).depth = max (next.depth + 1) rest.depth := rfl

@[simp] theorem depth_append (a b : Trie κ V) : (a.append b).depth = max a.depth b.depth := by
  induction a with
  | nil => simp
  | cons k v next rest _ ih => simp [ih, max_assoc]

@[simp] theorem depth_path (fill last : V) (ks : List κ) : (path fill ks last).depth = ks.length := by
  induction ks with
  | nil => rfl
  | cons k ks ih => simp [path, ih]

/-! ## Reading -/

section Lookup

variable [DecidableEq κ]

/-- The value stored under a nonempty sequence of keys. -/
def lookup : List κ → Trie κ V → Option V
  | _, nil => none
  | [], cons .. => none
  | k :: ks, cons a v next rest =>
      if k = a then if ks = [] then some v else lookup ks next else lookup (k :: ks) rest

@[simp] theorem lookup_nil (π : List κ) : (nil : Trie κ V).lookup π = none := by
  cases π <;> rfl

@[simp] theorem lookup_empty (t : Trie κ V) : t.lookup [] = none := by
  cases t <;> rfl

theorem lookup_cons (k a : κ) (ks : List κ) (v : V) (next rest : Trie κ V) :
    (cons a v next rest).lookup (k :: ks) =
      if k = a then if ks = [] then some v else next.lookup ks
      else rest.lookup (k :: ks) := rfl

/-- What is stored starts with a key of the layer. -/
theorem mem_keys_of_lookup {t : Trie κ V} {k : κ} {ks : List κ} {w : V}
    (h : t.lookup (k :: ks) = some w) : k ∈ t.keys := by
  induction t with
  | nil => simp at h
  | cons a v next rest _ ih =>
      rw [lookup_cons] at h
      by_cases hka : k = a
      · simp [hka]
      · rw [if_neg hka] at h
        exact List.mem_cons_of_mem _ (ih h)

theorem lookup_eq_none_of_notMem {t : Trie κ V} {k : κ} {ks : List κ} (h : k ∉ t.keys) :
    t.lookup (k :: ks) = none := by
  cases hl : t.lookup (k :: ks) with
  | none => rfl
  | some w => exact absurd (mem_keys_of_lookup hl) h

/-- The first part of a layer is looked through first. -/
theorem lookup_append_of_notMem {a b : Trie κ V} {k : κ} {ks : List κ} (h : k ∉ a.keys) :
    (a.append b).lookup (k :: ks) = b.lookup (k :: ks) := by
  induction a with
  | nil => rfl
  | cons c v next rest _ ih =>
      simp only [keys_cons, List.mem_cons, not_or] at h
      rw [cons_append, lookup_cons, if_neg h.1, ih h.2]

theorem lookup_append_of_mem {a b : Trie κ V} {k : κ} {ks : List κ} (h : k ∈ a.keys) :
    (a.append b).lookup (k :: ks) = a.lookup (k :: ks) := by
  induction a with
  | nil => simp at h
  | cons c v next rest _ ih =>
      rw [cons_append, lookup_cons, lookup_cons]
      by_cases hkc : k = c
      · rw [if_pos hkc, if_pos hkc]
      · rw [if_neg hkc, if_neg hkc, ih ((List.mem_cons.mp h).resolve_left hkc)]

end Lookup

/-- Follow in each layer the first key that is hit, and keep the last valid value. -/
def search (hit : ℕ → κ → Bool) (valid : V → Bool) : ℕ → Trie κ V → V → V
  | _, nil, res => res
  | lvl, cons k v next rest, res =>
      if hit lvl k then next.search hit valid (lvl + 1) (if valid v then v else res)
      else rest.search hit valid lvl res

/-- Keys that are not hit do not matter. -/
theorem search_append {hit : ℕ → κ → Bool} {valid : V → Bool} {lvl : ℕ} {A : Trie κ V}
    (h : ∀ a ∈ A.keys, hit lvl a = false) (B : Trie κ V) (res : V) :
    (A.append B).search hit valid lvl res = B.search hit valid lvl res := by
  induction A with
  | nil => rfl
  | cons k v next rest _ ih =>
      have hk : hit lvl k = false := h k (by simp)
      rw [cons_append, search, hk]
      exact ih fun a ha => h a (by simp [ha])

/-- All the keys of a sequence are hit, the first one at level `lvl`. -/
def Hits (hit : ℕ → κ → Bool) : ℕ → List κ → Prop
  | _, [] => True
  | lvl, k :: ks => hit lvl k = true ∧ Hits hit (lvl + 1) ks

theorem hits_iff {hit : ℕ → κ → Bool} {lvl : ℕ} {ks : List κ} :
    Hits hit lvl ks ↔ ∀ i k, ks[i]? = some k → hit (lvl + i) k = true := by
  induction ks generalizing lvl with
  | nil => simp [Hits]
  | cons k ks ih =>
      rw [Hits, ih]
      constructor
      · rintro ⟨hk, hks⟩ i a ha
        cases i with
        | zero =>
            obtain rfl : k = a := by simpa using ha
            exact hk
        | succ i =>
            rw [show lvl + (i + 1) = lvl + 1 + i by omega]
            exact hks i a (by simpa using ha)
      · intro h
        refine ⟨h 0 k rfl, fun i a ha => ?_⟩
        rw [show lvl + 1 + i = lvl + (i + 1) by omega]
        exact h (i + 1) a (by simpa using ha)

/-! ## Separated tries -/

/-- The keys of every layer are in the order `before`. -/
def Separated (before : κ → κ → Prop) : Trie κ V → Prop
  | nil => True
  | cons k _ next rest => (∀ a ∈ rest.keys, before k a) ∧ next.Separated before ∧
      rest.Separated before

section Separated

variable {before : κ → κ → Prop} {hit : ℕ → κ → Bool} {valid : V → Bool}

theorem Separated.pairwise {t : Trie κ V} (h : t.Separated before) : t.keys.Pairwise before := by
  induction t with
  | nil => exact .nil
  | cons k v next rest _ ih => exact .cons h.1 (ih h.2.2)

theorem separated_append {a b : Trie κ V} :
    (a.append b).Separated before ↔ a.Separated before ∧ b.Separated before ∧
      ∀ x ∈ a.keys, ∀ y ∈ b.keys, before x y := by
  induction a with
  | nil => simp [Separated]
  | cons k v next rest _ ih =>
      simp only [cons_append, Separated, keys_append, List.mem_append, ih, keys_cons,
        List.mem_cons]
      constructor
      · rintro ⟨h₁, h₂, h₃, h₄, h₅⟩
        refine ⟨⟨fun a ha => h₁ a (.inl ha), h₂, h₃⟩, h₄, ?_⟩
        rintro x (rfl | hx) y hy
        · exact h₁ y (.inr hy)
        · exact h₅ x hx y hy
      · rintro ⟨⟨h₁, h₂, h₃⟩, h₄, h₅⟩
        refine ⟨fun a ha => ?_, h₂, h₃, h₄, fun x hx => h₅ x (.inr hx)⟩
        rcases ha with ha | ha
        · exact h₁ a ha
        · exact h₅ k (.inl rfl) a ha

variable [DecidableEq κ]

/-- In a separated trie a search finds the longest of the stored sequences whose keys
are all hit. -/
theorem search_spec (hsep : ∀ l a b, before a b → hit l a = true → hit l b = false)
    {t : Trie κ V} (ht : t.Separated before) (lvl : ℕ) (res : V) :
    (t.search hit valid lvl res = res ∧
      ∀ π w, t.lookup π = some w → valid w = true → ¬ Hits hit lvl π) ∨
    ∃ π w, t.lookup π = some w ∧ valid w = true ∧ Hits hit lvl π ∧
      t.search hit valid lvl res = w ∧
        ∀ π' w', t.lookup π' = some w' → valid w' = true → Hits hit lvl π' → π' <+: π := by
  induction t generalizing lvl res with
  | nil => exact .inl ⟨rfl, by simp⟩
  | cons k v next rest ihn ihr =>
      obtain ⟨hk, hn, hr⟩ := ht
      by_cases hhit : hit lvl k = true
      · -- no other key of the layer is hit
        have hfirst : ∀ π w, (cons k v next rest).lookup π = some w → Hits hit lvl π →
            ∃ ks, π = k :: ks ∧ if ks = [] then v = w else next.lookup ks = some w := by
          intro π w hl hh
          cases π with
          | nil => simp at hl
          | cons a ks =>
              rw [lookup_cons] at hl
              by_cases hak : a = k
              · rw [if_pos hak] at hl
                refine ⟨ks, by rw [hak], ?_⟩
                split <;> simp_all
              · rw [if_neg hak] at hl
                have := hsep lvl k a (hk a (mem_keys_of_lookup hl)) hhit
                exact absurd hh.1 (by simp [this])
        have hs : (cons k v next rest).search hit valid lvl res =
            next.search hit valid (lvl + 1) (if valid v then v else res) := by
          simp [search, hhit]
        rw [hs]
        rcases ihn hn (lvl + 1) (if valid v then v else res) with
          ⟨hres, hnone⟩ | ⟨π, w, hl, hw, hh, hres, hmax⟩
        · cases hv : valid v with
          | false =>
              refine .inl ⟨by simpa [hv] using hres, fun π w hl hw hh => ?_⟩
              obtain ⟨ks, rfl, hks⟩ := hfirst π w hl hh
              split at hks
              · simp_all
              · exact hnone ks w hks hw hh.2
          | true =>
              refine .inr ⟨[k], v, by simp [lookup_cons], hv, ⟨hhit, trivial⟩,
                by simpa [hv] using hres, fun π w hl hw hh => ?_⟩
              obtain ⟨ks, rfl, hks⟩ := hfirst π w hl hh
              split at hks
              · simp_all
              · exact absurd hh.2 (hnone ks w hks hw)
        · have hne : π ≠ [] := by
            rintro rfl
            simp at hl
          refine .inr ⟨k :: π, w, by simp [lookup_cons, hne, hl], hw, ⟨hhit, hh⟩, hres, ?_⟩
          intro π' w' hl' hw' hh'
          obtain ⟨ks, rfl, hks⟩ := hfirst π' w' hl' hh'
          split at hks
          · simp_all
          · exact List.cons_prefix_cons.mpr ⟨rfl, hmax ks w' hks hw' hh'.2⟩
      · have hs : (cons k v next rest).search hit valid lvl res =
            rest.search hit valid lvl res := by
          simp [search, hhit]
        -- a sequence that begins with `k` is not hit
        have hrest : ∀ π w, (cons k v next rest).lookup π = some w → Hits hit lvl π →
            rest.lookup π = some w := by
          intro π w hl hh
          cases π with
          | nil => simp at hl
          | cons a ks =>
              rw [lookup_cons, if_neg] at hl
              · exact hl
              · rintro rfl
                exact hhit hh.1
        rw [hs]
        rcases ihr hr lvl res with ⟨hres, hnone⟩ | ⟨π, w, hl, hw, hh, hres, hmax⟩
        · exact .inl ⟨hres, fun π w hl hw hh => hnone π w (hrest π w hl hh) hw hh⟩
        · refine .inr ⟨π, w, ?_, hw, hh, hres, fun π' w' hl' hw' hh' =>
            hmax π' w' (hrest π' w' hl' hh') hw' hh'⟩
          cases π with
          | nil => simp at hl
          | cons a ks =>
              rw [lookup_cons, if_neg]
              · exact hl
              · rintro rfl
                exact hhit hh.1

end Separated

end Trie

end Pcv

import Pcv.PartitionSort.PathRemove

/-!
# What is stored along a path

`searchPath` follows the ranges of a rule as far as the tree has them.  `StoredAlong` says what
the path tells about the trie of the tree: how many of the ranges are there, which value is stored
under them, and whether other keys follow.
-/

namespace Pcv

open BTreeSearch
open Store (Agree)

variable {V : Type} {cfg : BTreeCfg} {sh : CompressedShape} {mem : Store (Node V)}
variable {order : DimensionOrder cfg.D} {rule : RuleSpec cfg.D V} {lvl : ℕ}
variable {t : Trie Range1d V} {fp : Multiset ℕ} {link : Option ℕ} {path : List PathItem}

/-- How far the ranges of the rule are stored: as far as the path goes, with the value of its last
key at the end. -/
structure StoredAlong (mem : Store (Node V)) (order : DimensionOrder cfg.D)
    (rule : RuleSpec cfg.D V) (lvl : ℕ) (path : List PathItem) (t : Trie Range1d V) : Prop where
  stops : ∀ m, path.length < m → t.lookup (rangesFrom order rule m lvl) = none
  last : ∀ b ∈ path.getLast?, t.lookup (rangesFrom order rule path.length lvl) =
    some ((mem.get b.node).getKey b.index).value
  below : ∀ b ∈ path.getLast?, ((mem.get b.node).nextLevel.get b.index).isSome = true →
    ∃ a w, t.lookup (rangesFrom order rule path.length lvl ++ [a]) = some w

theorem StoredAlong.nil (hmiss : rangeAt order rule lvl ∉ t.keys) :
    StoredAlong mem order rule lvl [] t where
  stops := by
    intro m hm
    obtain ⟨m, rfl⟩ : ∃ m', m = m' + 1 := ⟨m - 1, by simp at hm; omega⟩
    exact Trie.lookup_eq_none_of_notMem hmiss
  last := by simp
  below := by simp

/-- One key in front of the others. -/
theorem StoredAlong.cons {A n B : Trie Range1d V} {x : KeyInfo V} {e : PathItem}
    (h : StoredAlong mem order rule (lvl + 1) path n) (hA : x.key ∉ A.keys)
    (hk : x.key = rangeAt order rule lvl) (hx : (mem.get e.node).getKey e.index = x)
    (hlink : path = [] → x.nextLevel.isSome = true → n ≠ .nil) :
    StoredAlong mem order rule lvl (e :: path) (A.append (.cons x.key x.value n B)) := by
  subst hx
  rw [hk] at hA ⊢
  have hnext : ∀ m, 0 < m → rangesFrom order rule m (lvl + 1) ≠ [] := by
    intro m hm hnil
    have := congrArg List.length hnil
    rw [length_rangesFrom, List.length_nil] at this
    omega
  constructor
  · intro m hm
    obtain ⟨m, rfl⟩ : ∃ m', m = m' + 1 := ⟨m - 1, by simp at hm; omega⟩
    rw [List.length_cons] at hm
    rw [rangesFrom, Trie.lookup_at hA, if_neg (hnext m (by omega)), h.stops m (by omega)]
  · intro b hb
    rw [List.length_cons, rangesFrom, Trie.lookup_at hA]
    cases path with
    | nil =>
      obtain rfl : e = b := by simpa using hb
      exact if_pos rfl
    | cons f path =>
      rw [if_neg (hnext _ (by simp)), h.last b (by simpa using hb)]
  · intro b hb hsome
    rw [List.length_cons, rangesFrom]
    cases path with
    | nil =>
      obtain rfl : e = b := by simpa using hb
      obtain ⟨a, w, hl⟩ := Trie.exists_lookup_of_ne_nil (hlink rfl hsome)
      exact ⟨a, w, (Trie.lookup_at hA).trans ((if_neg (by simp)).trans hl)⟩
    | cons f path =>
      obtain ⟨a, w, hl⟩ := h.below b (by simpa using hb) hsome
      exact ⟨a, w, (Trie.lookup_at hA).trans ((if_neg (by simp)).trans hl)⟩

/-- The keys of a compressed node in front of the others. -/
theorem StoredAlong.thread {root i : ℕ} {xs : List (KeyInfo V)} {n : Trie Range1d V}
    (h : StoredAlong mem order rule (lvl + xs.length) path n)
    (hget : ∀ j, j < xs.length → xs[j]? = some ((mem.get root).getKey (i + j)))
    (hkeys : xs.map KeyInfo.key = rangesFrom order rule xs.length lvl)
    (hlink : path = [] → ∀ x ∈ xs.getLast?, x.nextLevel.isSome = true → n ≠ .nil) :
    StoredAlong mem order rule lvl (compressedItems root i xs.length ++ path) (thread xs n) := by
  induction xs generalizing i lvl with
  | nil => exact h
  | cons x xs ih =>
    rw [List.map_cons, List.length_cons, rangesFrom, List.cons.injEq] at hkeys
    have hrest : StoredAlong mem order rule (lvl + 1)
        (compressedItems root (i + 1) xs.length ++ path) (Pcv.thread xs n) := by
      refine ih ?_ (fun j hj => ?_) hkeys.2 fun hnil y hy => hlink hnil y ?_
      · rwa [show lvl + 1 + xs.length = lvl + (x :: xs).length by simp; omega]
      · have := hget (j + 1) (by simpa using hj)
        rwa [List.getElem?_cons_succ, show i + (j + 1) = i + 1 + j by omega] at this
      · rw [List.getLast?_cons, Option.mem_def.mp hy]
        rfl
    have hfirst := hget 0 (by simp)
    rw [List.length_cons, compressedItems, List.range'_succ, List.map_cons, List.cons_append]
    refine hrest.cons (A := .nil) (B := .nil) (by simp) hkeys.1
      (Option.some.inj (by simpa using hfirst.symm)) fun hnil hsome => ?_
    obtain ⟨hxs, hpath⟩ := List.append_eq_nil_iff.mp hnil
    have hxs : xs = [] := by
      rw [← List.length_eq_zero_iff, ← length_compressedItems root (i + 1) xs.length, hxs]
      rfl
    subst hxs
    exact hlink hpath x (by simp) hsome

/-- In a separated trie the ranges of the rule are stored along its path. -/
theorem Route.storedAlong (hr : Route cfg sh mem order rule lvl link t fp path)
    (hsep : t.Separated Range1d.Before) : StoredAlong mem order rule lvl path t := by
  induction hr with
  | stop _ hmiss =>
    exact .nil (hmiss (hsep.pairwise.imp fun {a b} (h : Range1d.Before a b) => h.low_lt))
  | @layer lvl h root m i L R x A n B fp fpA fpN fpB path hlvl _ _ hk hx _ _ hr ih =>
    have hA : x.key ∉ A.keys :=
      hsep.notMem_front fun (a b : Range1d) (h : Range1d.Before a b) => h.low_lt
    obtain ⟨-, ⟨-, hn, -⟩, -⟩ := Trie.separated_append.mp hsep
    refine (ih hn).cons hA hx hk.getKey fun hnil hsome => ?_
    obtain ⟨root', hroot'⟩ := Option.isSome_iff_exists.mp hsome
    have hd := hr.denotes
    rw [hroot'] at hd
    exact hd.ne_nil
  | @whole lvl root init last next fp path hlvl hn hkeys hr ih =>
    have hlen : (init ++ [last]).length = init.length + 1 := by simp
    rw [← hlen] at hkeys ⊢
    refine StoredAlong.thread ?_ (fun j hj => ?_) hkeys fun hnil x hx hsome => ?_
    · rw [hlen, ← Nat.add_assoc]
      exact ih (separated_of_thread _ hsep)
    · rw [Nat.zero_add]
      exact hn.getKey j (by omega)
    · obtain rfl : last = x := by simpa using hx
      obtain ⟨root', hroot'⟩ := Option.isSome_iff_exists.mp hsome
      have hd := hr.denotes
      rw [hroot'] at hd
      exact hd.ne_nil
  | @part lvl root init xs ys last y next fp hlvl hn hits hne hkeys hy hd =>
    have hlen := congrArg List.length hits
    simp only [List.length_append, List.length_cons, List.length_nil] at hlen
    have hfront : init = xs ++ (y :: ys).dropLast := by
      have := congrArg List.dropLast hits
      rwa [List.dropLast_concat, List.dropLast_append_of_ne_nil (by simp)] at this
    rw [hits, thread_append, ← List.append_nil (compressedItems root 0 xs.length)]
    refine StoredAlong.thread (.nil ?_) (fun j hj => ?_) hkeys fun _ x hx hsome => ?_
    · simpa [Pcv.thread] using Ne.symm hy
    · have := hn.getKey j (by omega)
      rw [Nat.zero_add]
      rwa [hits, List.getElem?_append_left hj] at this
    · -- only the last key of the node has a next layer
      have hmem : x ∈ init := hfront ▸ List.mem_append_left _ (List.mem_of_getLast? hx)
      rw [hn.nextLevel x hmem] at hsome
      cases hsome

end Pcv

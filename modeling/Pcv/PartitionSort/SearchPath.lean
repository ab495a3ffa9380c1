import Pcv.PartitionSort.NewPath

/-!
# The path of the ranges of a rule

`searchPath` follows the ranges of a rule from layer to layer, as long as the layers
hold them.  Each lemma describes the path through one layer, in terms of the path
through the layers below the key that is hit.
-/

namespace Pcv

open BTreeSearch

variable {V : Type} {cfg : BTreeCfg} {sh : CompressedShape} {mem : Store (Node V)}
variable (order : DimensionOrder cfg.D) (rule : RuleSpec cfg.D V) (depth : ℕ) {lvl root : ℕ}
variable {t : Trie Range1d V} {fp : Multiset ℕ}

/-- The key at a level is not in the layer, as far as the search can tell. -/
def Misses (k : Range1d) (t : Trie Range1d V) : Prop :=
  t.keys.Pairwise (fun a b => a.low < b.low) → k ∉ t.keys

theorem keyAt_eq (h : lvl < cfg.D) : keyAt order rule lvl = .ok (rangeAt order rule lvl) := by
  simp [keyAt, rangeAt, h]

/-- In a layer with strictly increasing keys the search for a range finds its key. -/
theorem selects_ofRange {its : List (KeyInfo V)} {k : Range1d}
    (h : (its.map KeyInfo.key).Pairwise fun a b => a.low < b.low) :
    (Probe.ofRange k).Selects its := by
  rintro L x R rfl hhit
  have hx : x.key = k := by simpa [Probe.ofRange] using hhit
  simp only [List.map_append, List.map_cons, List.pairwise_append, List.pairwise_cons] at h
  refine ⟨by simp [Probe.ofRange, hx], fun y hy => ?_⟩
  rw [← hx] at *
  exact h.2.1.1 y.key (List.mem_map_of_mem hy)

/-- The path through a layer that is not compressed. -/
theorem searchPath_layer {h : ℕ} {its : List (KeyInfo V)} {fpI : Multiset ℕ} (hlvl : lvl < cfg.D)
    (hL : Layer cfg mem h none root its fp) (ho : Ordered its) (hnd : fp.Nodup) (hh : h < depth)
    (hits : Denotes cfg sh mem lvl (.items its) t fpI) :
    (∃ m i L x R, its = L ++ x :: R ∧ KeyAt cfg mem h none root fp m i L x R ∧
      x.key = rangeAt order rule lvl ∧
      ∀ fuel, searchPath mem order rule depth (fuel + 1) (some root) lvl =
        (searchPath mem order rule depth fuel x.nextLevel (lvl + 1)).map (⟨root, m, i⟩ :: ·)) ∨
    Misses (rangeAt order rule lvl) t ∧
      ∀ fuel, searchPath mem order rule depth (fuel + 1) (some root) lvl = .ok [] := by
  rcases hL.search (p := .ofRange (rangeAt order rule lvl)) hnd hh with
    ⟨m, i, L, x, R, hs, rfl, hk, hhit⟩ | ⟨hs, hnone⟩
  · refine .inl ⟨m, i, L, x, R, rfl, hk, ?_, fun fuel => ?_⟩
    · simpa [Probe.ofRange] using hhit
    · have hlink : (mem.get m).nextLevel.get i = x.nextLevel := by
        rw [← hk.getKey]
        rfl
      simp only [searchPath, keyAt_eq order rule hlvl, Bind.bind, Except.bind, hs, hk.isCompressed,
        Bool.false_and, Bool.false_eq_true, if_false, hlink]
      cases searchPath mem order rule depth fuel x.nextLevel (lvl + 1) <;> rfl
  · refine .inr ⟨fun hstrict hmem => ?_, fun fuel => ?_⟩
    · rw [hits.keys_eq] at hstrict hmem
      obtain ⟨x, hx, hxk⟩ := List.mem_map.mp hmem
      have := hnone ho (selects_ofRange hstrict) x hx
      simp [Probe.ofRange, hxk] at this
    · simp [searchPath, keyAt_eq order rule hlvl, Bind.bind, Except.bind, hs, Pure.pure, Except.pure]

/-- The entries of a compressed node on a path. -/
def compressedItems (root i cnt : ℕ) : List PathItem :=
  (List.range' i cnt).map fun j => ⟨root, root, j⟩

/-- The path through the rest of a compressed node, from slot `i` on. -/
theorem searchPathInCompressed_eq (root : ℕ) {nd : Node V} {init : List (KeyInfo V)} {last : KeyInfo V}
    (hn : nd.CompressedNode cfg sh lvl init last) (hlvl : lvl + init.length < cfg.D)
    (suf pre : List (KeyInfo V)) (hsuf : init ++ [last] = pre ++ suf) :
    ∃ xs ys, suf = xs ++ ys ∧
      xs.map KeyInfo.key = rangesFrom order rule xs.length (lvl + pre.length) ∧
      (∀ y ∈ ys.head?, y.key ≠ rangeAt order rule (lvl + pre.length + xs.length)) ∧
      searchPathInCompressed nd root order rule lvl suf.length pre.length =
        .ok (compressedItems root pre.length xs.length, decide (ys = [])) := by
  induction suf generalizing pre with
  | nil => exact ⟨[], [], rfl, rfl, by simp, rfl⟩
  | cons x suf ih =>
      have hlen : pre.length + suf.length = init.length := by
        have := congrArg List.length hsuf
        simp at this
        omega
      have hx : nd.getKey pre.length = x := by
        have := hn.getKey pre.length (by omega)
        simpa [hsuf] using this.symm
      have hk : keyAt order rule (lvl + pre.length) = .ok (rangeAt order rule (lvl + pre.length)) :=
        keyAt_eq order rule (by omega)
      by_cases heq : x.key = rangeAt order rule (lvl + pre.length)
      · obtain ⟨xs, ys, rfl, hxs, hys, hres⟩ := ih (pre ++ [x]) (by simp [hsuf])
        refine ⟨x :: xs, ys, rfl, ?_, ?_, ?_⟩
        · simp only [List.map_cons, List.length_cons, rangesFrom, heq, hxs]
          simp [Nat.add_assoc]
        · simpa [Nat.add_assoc, Nat.add_comm 1] using hys
        · have hres' : searchPathInCompressed nd root order rule lvl (xs.length + ys.length)
              (pre.length + 1) =
                .ok (compressedItems root (pre.length + 1) xs.length, decide (ys = [])) := by
            simpa using hres
          simp [searchPathInCompressed, hk, hx, heq, hres', Bind.bind, Except.bind, Pure.pure,
            Except.pure, compressedItems, List.range'_succ]
      · refine ⟨[], x :: suf, rfl, rfl, by simpa using heq, ?_⟩
        simp [searchPathInCompressed, hk, hx, heq, Bind.bind, Except.bind, Pure.pure, Except.pure,
          compressedItems]

/-- The path through a compressed node. -/
theorem searchPath_compressed {init : List (KeyInfo V)} {last : KeyInfo V}
    (hlvl : lvl + init.length < cfg.D) (hn : (mem.get root).CompressedNode cfg sh lvl init last)
    (hdepth : 0 < depth) :
    ((∀ x ∈ (init ++ [last]).head?, x.key ≠ rangeAt order rule lvl) ∧
      ∀ fuel, searchPath mem order rule depth (fuel + 1) (some root) lvl = .ok []) ∨
    ∃ xs ys, init ++ [last] = xs ++ ys ∧ xs ≠ [] ∧
      xs.map KeyInfo.key = rangesFrom order rule xs.length lvl ∧
      (∀ y ∈ ys.head?, y.key ≠ rangeAt order rule (lvl + xs.length)) ∧
      ∀ fuel, searchPath mem order rule depth (fuel + 1) (some root) lvl =
        if ys = [] then
          (searchPath mem order rule depth fuel last.nextLevel (lvl + xs.length)).map
            (compressedItems root 0 xs.length ++ ·)
        else .ok (compressedItems root 0 xs.length) := by
  obtain ⟨d, rfl⟩ : ∃ d, depth = d + 1 := ⟨depth - 1, by omega⟩
  obtain ⟨x, suf, hits⟩ : ∃ x suf, init ++ [last] = x :: suf := by
    cases init with
    | nil => exact ⟨last, [], rfl⟩
    | cons x init => exact ⟨x, init ++ [last], rfl⟩
  have hlen : suf.length = init.length := by
    have := congrArg List.length hits
    simpa using this.symm
  have hx0 : (mem.get root).keys.get 0 = x.key := by
    have := hn.getKey 0 (by omega)
    have : x = (mem.get root).getKey 0 := by simpa [hits] using this
    rw [this]
    rfl
  have hk : keyAt order rule lvl = .ok (rangeAt order rule lvl) := keyAt_eq order rule (by omega)
  have hs : searchPossition1d mem (.ofRange (rangeAt order rule lvl)) (d + 1) (some root) =
      .ok (if x.key = rangeAt order rule lvl then some (root, 0) else none) := by
    simp only [searchPossition1d, hn.isCompressed, searchCompressedSeq, hx0, Probe.ofRange, if_true]
    by_cases heq : x.key = rangeAt order rule lvl <;> simp [heq]
  by_cases heq : x.key = rangeAt order rule lvl
  · right
    obtain ⟨xs, ys, rfl, hxs, hys, hres⟩ :=
      searchPathInCompressed_eq order rule root hn hlvl suf [x] (by simp [hits])
    refine ⟨x :: xs, ys, by simpa using hits, by simp, ?_, ?_, fun fuel => ?_⟩
    · simp only [List.map_cons, List.length_cons, rangesFrom, heq, hxs, List.length_nil]
    · simpa [Nat.add_assoc, Nat.add_comm 1] using hys
    · have hcnt : (mem.get root).keyCnt - 1 = (xs ++ ys).length := by
        rw [hn.keyCnt, hlen]
        rfl
      have hpos : 0 < (mem.get root).keyCnt := by
        rw [hn.keyCnt]
        omega
      have hres' : searchPathInCompressed (mem.get root) root order rule lvl
          ((mem.get root).keyCnt - 1) 1 =
            .ok (compressedItems root 1 xs.length, decide (ys = [])) := by
        rw [hcnt]
        exact hres
      have hitems : compressedItems root 0 (xs.length + 1) =
          ⟨root, root, 0⟩ :: compressedItems root 1 xs.length := by
        simp [compressedItems, List.range'_succ]
      simp only [searchPath, hk, Bind.bind, Except.bind, hs, if_pos heq, hn.isCompressed, hpos,
        decide_true, Bool.and_self, if_true, hres', List.length_cons, hitems]
      by_cases hnil : ys = []
      · subst hnil
        have hlink : (mem.get root).nextLevel.get ((mem.get root).keyCnt - 1) = last.nextLevel := by
          have := hn.getKey init.length (by omega)
          have : last = (mem.get root).getKey init.length := by simpa using this
          rw [this, hn.keyCnt]
          rfl
        have hlvl' : lvl + (mem.get root).keyCnt = lvl + (xs.length + 1) := by
          simp only [List.append_nil] at hcnt
          omega
        simp only [decide_true, if_true, hlink, hlvl']
        cases searchPath mem order rule (d + 1) fuel last.nextLevel (lvl + (xs.length + 1)) <;> rfl
      · simp [hnil, Pure.pure, Except.pure]
  · left
    refine ⟨by simpa [hits] using heq, fun fuel => ?_⟩
    simp [searchPath, hk, Bind.bind, Except.bind, hs, if_neg heq, Pure.pure, Except.pure]

/-- A computation followed by a function returns what the function makes of a result. -/
theorem map_eq_ok {α β : Type} {f : α → β} {x : Except Fault α} {b : β} (h : x.map f = .ok b) :
    ∃ a, x = .ok a ∧ f a = b := by
  cases x with
  | error e => cases h
  | ok a => exact ⟨a, rfl, Except.ok.inj h⟩

/-- A path that ends at a link does so however far it may go. -/
theorem searchPath_of_nil {link : Option ℕ} {fuel : ℕ}
    (hd : Denotes cfg sh mem lvl (.link link) t fp) (hnd : fp.Nodup) (hdepth : fp.card ≤ depth)
    (h : searchPath mem order rule depth fuel link lvl = .ok []) :
    Misses (rangeAt order rule lvl) t ∧
      ∀ fuel, 0 < fuel → searchPath mem order rule depth fuel link lvl = .ok [] := by
  cases link with
  | none =>
      obtain ⟨rfl, -⟩ := hd.of_null
      exact ⟨fun _ => by simp, fun fuel _ => by cases fuel <;> rfl⟩
  | some root =>
      obtain ⟨fuel, rfl⟩ : ∃ f, fuel = f + 1 := by
        cases fuel with
        | zero => simp [searchPath] at h
        | succ f => exact ⟨f, rfl⟩
      have hend : (∀ fuel, searchPath mem order rule depth (fuel + 1) (some root) lvl = .ok []) →
          ∀ fuel, 0 < fuel → searchPath mem order rule depth fuel (some root) lvl = .ok [] := by
        intro hall fuel hpos
        obtain ⟨f, rfl⟩ : ∃ f, fuel = f + 1 := ⟨fuel - 1, by omega⟩
        exact hall f
      cases hd with
      | layer hlvl hL _ ho hits =>
          have hh := hL.height_lt_card
          rw [Multiset.card_add] at hdepth
          rcases searchPath_layer order rule depth hlvl hL ho
            (Multiset.nodup_of_le (Multiset.le_add_right _ _) hnd) (by omega) hits with
            ⟨m, i, L, x, R, -, -, -, hs⟩ | ⟨hmiss, hs⟩
          · obtain ⟨path, -, h⟩ := map_eq_ok ((hs fuel).symm.trans h)
            cases h
          · exact ⟨hmiss, hend hs⟩
      | @compressed _ _ init last next fp hlvl hn hnext =>
          rw [Multiset.card_cons] at hdepth
          rcases searchPath_compressed order rule depth hlvl hn
            (by omega) with ⟨hhead, hs⟩ | ⟨xs, ys, -, hne, -, -, hs⟩
          · refine ⟨fun _ => ?_, hend hs⟩
            cases init with
            | nil => simpa [thread, eq_comm] using hhead
            | cons y init => simpa [thread, eq_comm] using hhead
          · obtain ⟨x, xs, rfl⟩ := List.exists_cons_of_ne_nil hne
            rw [hs fuel] at h
            split at h
            · obtain ⟨path, -, h⟩ := map_eq_ok h
              simp [compressedItems, List.range'_succ] at h
            · simp [compressedItems, List.range'_succ] at h

/-- The path is found, and its levels are levels of the tree. -/
theorem exists_searchPath {link : Option ℕ} {fuel : ℕ}
    (hd : Denotes cfg sh mem lvl (.link link) t fp) (hnd : fp.Nodup) (hdepth : fp.card ≤ depth)
    (hfuel : cfg.D < lvl + fuel) :
    ∃ path, searchPath mem order rule depth fuel link lvl = .ok path := by
  induction fuel generalizing link lvl t fp with
  | zero =>
      cases link with
      | none => exact ⟨[], rfl⟩
      | some root =>
          have := hd.level_lt
          omega
  | succ fuel ih =>
      cases link with
      | none => exact ⟨[], rfl⟩
      | some root =>
          cases hd with
          | layer hlvl hL _ ho hits =>
              have hh := hL.height_lt_card
              rw [Multiset.card_add] at hdepth
              rcases searchPath_layer order rule depth hlvl hL ho
                (Multiset.nodup_of_le (Multiset.le_add_right _ _) hnd) (by omega) hits with
                ⟨m, i, L, x, R, rfl, -, -, hs⟩ | ⟨-, hs⟩
              · obtain ⟨A, n, B, fp₁, fpN, fp₂, -, rfl, -, hn, -⟩ := hits.next
                simp only [Multiset.card_add] at hdepth
                have hle : fpN ≤ fp₁ + (fpN + fp₂) :=
                  (Multiset.le_add_right _ _).trans (Multiset.le_add_left _ _)
                obtain ⟨path, hpath⟩ := ih hn (Multiset.nodup_of_le
                  (hle.trans (Multiset.le_add_left _ _)) hnd) (by omega) (by omega)
                exact ⟨⟨root, m, i⟩ :: path, by rw [hs fuel, hpath]; rfl⟩
              · exact ⟨[], hs fuel⟩
          | @compressed _ _ init last next fp hlvl hn hnext =>
              rw [Multiset.card_cons] at hdepth
              rcases searchPath_compressed order rule depth hlvl hn
                (by omega) with ⟨-, hs⟩ | ⟨xs, ys, hits, -, -, -, hs⟩
              · exact ⟨[], hs fuel⟩
              · by_cases hnil : ys = []
                · subst hnil
                  have hlen : xs.length = init.length + 1 := by
                    have := congrArg List.length hits
                    simpa using this.symm
                  obtain ⟨path, hpath⟩ := ih hnext
                    (Multiset.nodup_of_le (Multiset.le_cons_self _ _) hnd) (by omega) (by omega)
                  refine ⟨compressedItems root 0 xs.length ++ path, ?_⟩
                  rw [hs fuel, if_pos rfl, hlen, ← Nat.add_assoc, hpath]
                  rfl
                · exact ⟨_, by rw [hs fuel, if_neg hnil]⟩

end Pcv

import Pcv.PartitionSort.SearchPath

/-!
# The route of a rule

`Route` shows the path that `searchPath` finds together with what it passes: the keys of a
layer on both sides of the key that is hit, the layer below, and where the path ends.  The
computations that walk along a path are verified by induction over its route.
-/

namespace Pcv

open BTreeSearch
open Store (Agree)

variable {V : Type} {cfg : BTreeCfg} {sh : CompressedShape} {mem : Store (Node V)}
variable {order : DimensionOrder cfg.D} {rule : RuleSpec cfg.D V} {lvl : ℕ}
variable {t : Trie Range1d V} {fp : Multiset ℕ} {link : Option ℕ} {path : List PathItem}

/-- The route of a rule through what lies below a link: `stop` where the next range is not
there, one step through a layer, all the keys of a compressed node, or some of them. -/
inductive Route (cfg : BTreeCfg) (sh : CompressedShape) (mem : Store (Node V))
    (order : DimensionOrder cfg.D) (rule : RuleSpec cfg.D V) :
    ℕ → Option ℕ → Trie Range1d V → Multiset ℕ → List PathItem → Prop
  | stop {lvl : ℕ} {link : Option ℕ} {t : Trie Range1d V} {fp : Multiset ℕ} :
      Denotes cfg sh mem lvl (.link link) t fp → Misses (rangeAt order rule lvl) t →
      Route cfg sh mem order rule lvl link t fp []
  | layer {lvl h root m i : ℕ} {L R : List (KeyInfo V)} {x : KeyInfo V} {A n B : Trie Range1d V}
      {fp fpA fpN fpB : Multiset ℕ} {path : List PathItem} :
      lvl < cfg.D → Layer cfg mem h none root (L ++ x :: R) fp → Ordered (L ++ x :: R) →
      KeyAt cfg mem h none root fp m i L x R → x.key = rangeAt order rule lvl →
      Denotes cfg sh mem lvl (.items L) A fpA → Denotes cfg sh mem lvl (.items R) B fpB →
      Route cfg sh mem order rule (lvl + 1) x.nextLevel n fpN path →
      Route cfg sh mem order rule lvl (some root) (A.append (.cons x.key x.value n B))
        (fp + (fpA + (fpN + fpB))) (⟨root, m, i⟩ :: path)
  | whole {lvl root : ℕ} {init : List (KeyInfo V)} {last : KeyInfo V} {next : Trie Range1d V}
      {fp : Multiset ℕ} {path : List PathItem} :
      lvl + init.length < cfg.D → (mem.get root).CompressedNode cfg sh lvl init last →
      (init ++ [last]).map KeyInfo.key = rangesFrom order rule (init.length + 1) lvl →
      Route cfg sh mem order rule (lvl + init.length + 1) last.nextLevel next fp path →
      Route cfg sh mem order rule lvl (some root) (thread (init ++ [last]) next) (root ::ₘ fp)
        (compressedItems root 0 (init.length + 1) ++ path)
  | part {lvl root : ℕ} {init xs ys : List (KeyInfo V)} {last y : KeyInfo V}
      {next : Trie Range1d V} {fp : Multiset ℕ} :
      lvl + init.length < cfg.D → (mem.get root).CompressedNode cfg sh lvl init last →
      init ++ [last] = xs ++ y :: ys → xs ≠ [] →
      xs.map KeyInfo.key = rangesFrom order rule xs.length lvl →
      y.key ≠ rangeAt order rule (lvl + xs.length) →
      Denotes cfg sh mem (lvl + init.length + 1) (.link last.nextLevel) next fp →
      Route cfg sh mem order rule lvl (some root) (thread (init ++ [last]) next) (root ::ₘ fp)
        (compressedItems root 0 xs.length)

/-- A path has a route. -/
theorem Denotes.route {depth fuel : ℕ} (hd : Denotes cfg sh mem lvl (.link link) t fp)
    (hnd : fp.Nodup) (hdepth : fp.card ≤ depth)
    (h : searchPath mem order rule depth fuel link lvl = .ok path) :
    Route cfg sh mem order rule lvl link t fp path := by
  induction fuel generalizing link lvl t fp path with
  | zero =>
      cases link with
      | none =>
          obtain rfl : [] = path := by simpa [searchPath] using h
          obtain ⟨rfl, -⟩ := hd.of_null
          exact .stop hd fun _ => by simp
      | some root => simp [searchPath] at h
  | succ fuel ih =>
      cases path with
      | nil => exact .stop hd (searchPath_of_nil order rule depth hd hnd hdepth h).1
      | cons e path =>
          cases link with
          | none => simp [searchPath] at h
          | some root =>
              cases hd with
              | layer hlvl hL _ ho hits =>
                  have hh := hL.height_lt_card
                  rw [Multiset.card_add] at hdepth
                  rcases searchPath_layer order rule depth hlvl hL ho
                    (Multiset.nodup_of_le (Multiset.le_add_right _ _) hnd) (by omega) hits with
                    ⟨m, i, L, x, R, rfl, hk, hx, hs⟩ | ⟨-, hs⟩
                  · obtain ⟨A, n, B, fp₁, fpN, fp₂, rfl, rfl, hA, hn, hB⟩ := hits.next
                    simp only [Multiset.card_add] at hdepth
                    have hle : fpN ≤ fp₁ + (fpN + fp₂) :=
                      (Multiset.le_add_right _ _).trans (Multiset.le_add_left _ _)
                    obtain ⟨path', hpath, heq⟩ := map_eq_ok ((hs fuel).symm.trans h)
                    rw [List.cons.injEq] at heq
                    obtain ⟨rfl, rfl⟩ := heq
                    exact .layer hlvl hL ho hk hx hA hB (ih hn (Multiset.nodup_of_le
                      (hle.trans (Multiset.le_add_left _ _)) hnd) (by omega) hpath)
                  · rw [hs fuel] at h
                    cases h
              | @compressed _ _ init last next fp hlvl hn hnext =>
                  rw [Multiset.card_cons] at hdepth
                  rcases searchPath_compressed order rule depth hlvl hn (by omega) with
                    ⟨-, hs⟩ | ⟨xs, ys, hits, hne, hxs, hys, hs⟩
                  · rw [hs fuel] at h
                    cases h
                  · rw [hs fuel] at h
                    cases ys with
                    | nil =>
                        rw [List.append_nil] at hits
                        subst hits
                        rw [List.length_append, List.length_singleton] at h hxs
                        rw [if_pos rfl, ← Nat.add_assoc] at h
                        obtain ⟨path', hpath, heq⟩ := map_eq_ok h
                        rw [← heq]
                        exact .whole hlvl hn hxs (ih hnext (Multiset.nodup_of_le
                          (Multiset.le_cons_self _ _) hnd) (by omega) hpath)
                    | cons y ys =>
                        rw [if_neg (by simp)] at h
                        rw [← Except.ok.inj h]
                        exact .part hlvl hn hits hne hxs (hys y rfl) hnext

namespace Route

/-- What lies below the link. -/
theorem denotes (hr : Route cfg sh mem order rule lvl link t fp path) :
    Denotes cfg sh mem lvl (.link link) t fp := by
  induction hr with
  | stop hd => exact hd
  | @layer lvl h root m i L R x A n B fp fpA fpN fpB path hlvl hL ho _ _ hA hB _ ih =>
      exact .layer hlvl hL (by simp) ho (hA.append (.cons ih hB))
  | whole hlvl hn _ _ ih => exact .compressed hlvl hn ih
  | part hlvl hn _ _ _ _ hnext => exact .compressed hlvl hn hnext

/-- The path stays within the nodes below the link. -/
theorem mem_fp (hr : Route cfg sh mem order rule lvl link t fp path) :
    ∀ b ∈ path, b.root ∈ fp ∧ b.node ∈ fp := by
  induction hr with
  | stop => simp
  | layer _ hL _ hk _ _ _ _ ih =>
      intro b hb
      rcases List.mem_cons.mp hb with rfl | hb
      · exact ⟨Multiset.mem_add.mpr (.inl hL.root_mem), Multiset.mem_add.mpr (.inl hk.mem_fp)⟩
      · have := ih b hb
        simp only [Multiset.mem_add]
        tauto
  | whole _ _ _ _ ih =>
      intro b hb
      rcases List.mem_append.mp hb with hb | hb
      · obtain ⟨j, -, rfl⟩ := List.mem_map.mp hb
        simp
      · exact ⟨Multiset.mem_cons_of_mem (ih b hb).1, Multiset.mem_cons_of_mem (ih b hb).2⟩
  | part =>
      intro b hb
      obtain ⟨j, -, rfl⟩ := List.mem_map.mp hb
      simp

end Route

end Pcv

import Pcv.Library.TrieToList
import Pcv.PartitionSort.BTreeToRules
import Pcv.PartitionSort.TreeOfRules

/-!
# The rules of a tree

The extraction walks through the nodes with one path of ranges that it changes in
place.  At every node it has set the fields of the levels above, and the fields from
the level of the node on are wildcards; it leaves the node with the same path.  So
what it adds is what the trie below the node stores, written into the path.

A tree of pairwise different rules keeps each of them once, so the extraction yields
the rules that were inserted.
-/

namespace Pcv

open DynamicMempool BTreeToRules

variable {D : ℕ} {V : Type}

/-! ## The path of ranges -/

/-- Write a range into the field that a level tests. -/
def setAt (order : DimensionOrder D) (lvl : ℕ) (k : Range1d) (path : Vector Range1d D) :
    Vector Range1d D :=
  match order[lvl]? with
  | some d => path.set d k d.isLt
  | none => path

/-- Write a sequence of ranges into the fields of consecutive levels. -/
def pathWith (order : DimensionOrder D) : ℕ → List Range1d → Vector Range1d D → Vector Range1d D
  | _, [], path => path
  | lvl, k :: ks, path => pathWith order (lvl + 1) ks (setAt order lvl k path)

/-- The fields of the levels from `lvl` on are wildcards. -/
def Wild (bytes : ℕ) (order : DimensionOrder D) (lvl : ℕ) (path : Vector Range1d D) : Prop :=
  ∀ i, lvl ≤ i → setAt order i (Range1d.wildcard bytes) path = path

section Path

variable {order : DimensionOrder D} {path : Vector Range1d D} {bytes lvl : ℕ}

@[simp] theorem setAt_setAt (order : DimensionOrder D) (lvl : ℕ) (a b : Range1d)
    (path : Vector Range1d D) :
    setAt order lvl a (setAt order lvl b path) = setAt order lvl a path := by
  unfold setAt
  split <;> simp

theorem setAt_comm (hp : order.IsPermutation) {i j : ℕ} (hij : i ≠ j) (a b : Range1d)
    (path : Vector Range1d D) :
    setAt order i a (setAt order j b path) = setAt order j b (setAt order i a path) := by
  unfold setAt
  cases hi : order[i]? with
  | none => rfl
  | some d =>
      cases hj : order[j]? with
      | none => rfl
      | some e =>
          -- the order tests no field twice
          have hne : (d : ℕ) ≠ e := by
            intro heq
            obtain rfl := Fin.ext heq
            have hnd : order.toList.Nodup := hp.nodup_iff.mpr (List.nodup_finRange D)
            obtain ⟨hi', hi⟩ := Vector.getElem?_eq_some_iff.mp hi
            obtain ⟨hj', hj⟩ := Vector.getElem?_eq_some_iff.mp hj
            refine hij ((@List.Nodup.getElem_inj_iff _ _ hnd _ ?_ _ ?_).mp ?_)
            · simpa using hi'
            · simpa using hj'
            · simp [hi, hj]
          exact Vector.set_comm _ _ hne.symm

theorem setAt_pathWith (hp : order.IsPermutation) {i : ℕ} (a : Range1d) (ks : List Range1d) :
    ∀ (lvl : ℕ) (path : Vector Range1d D), i < lvl →
      setAt order i a (pathWith order lvl ks path) = pathWith order lvl ks (setAt order i a path) := by
  induction ks with
  | nil => exact fun _ _ _ => rfl
  | cons k ks ih =>
      intro lvl path hlt
      rw [pathWith, ih (lvl + 1) _ (by omega), pathWith, setAt_comm hp (by omega)]

theorem Wild.setAt (hp : order.IsPermutation) (h : Wild bytes order lvl path) (k : Range1d) :
    Wild bytes order (lvl + 1) (setAt order lvl k path) := by
  intro i hi
  rw [setAt_comm hp (by omega), h i (by omega)]

theorem Wild.mono (h : Wild bytes order lvl path) : Wild bytes order (lvl + 1) path :=
  fun i hi => h i (by omega)

end Path

variable [RuleValue V]

/-! ## What a trie adds to a path -/

/-- The rules that a trie stores, written into a path. -/
def rulesOf (order : DimensionOrder D) (lvl : ℕ) (t : Trie Range1d V) (path : Vector Range1d D) :
    Multiset (RuleSpec D V) :=
  ↑((t.toList isValid).map fun e => (⟨pathWith order lvl e.1 path, e.2⟩ : RuleSpec D V))

section RulesOf

variable (order : DimensionOrder D) (lvl : ℕ) (path : Vector Range1d D)

@[simp] theorem rulesOf_nil : rulesOf order lvl (.nil : Trie Range1d V) path = 0 := rfl

theorem rulesOf_cons (k : Range1d) (v : V) (next rest : Trie Range1d V) :
    rulesOf order lvl (.cons k v next rest) path =
      (if isValid v then {⟨setAt order lvl k path, v⟩} else 0) +
        rulesOf order (lvl + 1) next (setAt order lvl k path) + rulesOf order lvl rest path := by
  simp only [rulesOf, Trie.toList, List.map_append, List.map_map, ← Multiset.coe_add]
  congr 1
  congr 1
  split <;> rfl

theorem rulesOf_append (a b : Trie Range1d V) :
    rulesOf order lvl (a.append b) path = rulesOf order lvl a path + rulesOf order lvl b path := by
  induction a with
  | nil => simp
  | cons k v next rest _ ih => simp only [Trie.cons_append, rulesOf_cons, ih, add_assoc]

end RulesOf

/-- The walk returns to the path it was started with, and has added some rules. -/
def Adds (x : Except Fault (State D V)) (s : State D V) (rules : Multiset (RuleSpec D V)) : Prop :=
  ∃ res, x = .ok ⟨s.actualPath, res⟩ ∧ (res : Multiset (RuleSpec D V)) = s.res + rules

section Steps

omit [RuleValue V] in
theorem setPath_eq {order : DimensionOrder D} {lvl : ℕ} (h : lvl < D) (s : State D V)
    (k : Range1d) :
    s.setPath order lvl k = .ok ⟨setAt order lvl k s.actualPath, s.res⟩ := by
  have hord : order[lvl]? = some order[lvl] := by simp [h]
  simp only [State.setPath, setAt, hord]

theorem save_eq (s : State D V) (v : V) :
    ∃ res, s.save v = ⟨s.actualPath, res⟩ ∧ (res : Multiset (RuleSpec D V)) =
      s.res + if isValid v then {⟨s.actualPath, v⟩} else 0 := by
  unfold State.save
  split
  · exact ⟨_, rfl, rfl⟩
  · exact ⟨_, rfl, by simp⟩

end Steps

/-! ## The walk through the nodes -/

section Walk

variable {cfg : BTreeCfg} {sh : CompressedShape} {mem : Store (Node V)}
variable {order : DimensionOrder cfg.D} {lvl fuel : ℕ}

/-- The walk below a link adds what the trie there stores. -/
def WalksLink (cfg : BTreeCfg) (sh : CompressedShape) (mem : Store (Node V))
    (order : DimensionOrder cfg.D) (fuel lvl : ℕ) : Prop :=
  ∀ (l : Option ℕ) (t : Trie Range1d V) (fp : Multiset ℕ) (s : State cfg.D V),
    Denotes cfg sh mem lvl (.link l) t fp → fp.card ≤ fuel →
      Wild cfg.keyBytes order lvl s.actualPath →
        Adds (toRulesFrom cfg mem order fuel l lvl s) s (rulesOf order lvl t s.actualPath)

/-- The loop over the keys of a node that is not compressed.  It leaves the field of its level
set to the last key. -/
theorem keysFrom_eq (hp : order.IsPermutation) {nd : Node V} (hlvl : lvl < cfg.D)
    (hwalk : WalksLink cfg sh mem order fuel (lvl + 1)) (base : Vector Range1d cfg.D)
    (hbase : Wild cfg.keyBytes order lvl base) :
    ∀ (its : List (KeyInfo V)) (i : ℕ) (t : Trie Range1d V) (fp : Multiset ℕ)
      (s : State cfg.D V), (∀ j, j < its.length → its[j]? = some (nd.getKey (i + j))) →
      Denotes cfg sh mem lvl (.items its) t fp → fp.card ≤ fuel →
      (∀ k, setAt order lvl k s.actualPath = setAt order lvl k base) →
      ∃ s', keysFrom (toRulesFrom cfg mem order fuel) nd order 0 its.length i lvl s = .ok s' ∧
        (∀ k, setAt order lvl k s'.actualPath = setAt order lvl k base) ∧
        (s'.res : Multiset (RuleSpec cfg.D V)) = s.res + rulesOf order lvl t base := by
  intro its
  induction its with
  | nil =>
      intro i t fp s _ hd _ hs
      cases hd
      exact ⟨s, rfl, hs, by simp⟩
  | cons x its ih =>
      intro i t fp s hslot hd hcard hs
      cases hd with
      | @cons _ _ _ next rest fpN fpR hx hrest =>
          have hslot0 : x = nd.getKey i := by simpa using hslot 0 (by simp)
          rw [Multiset.card_add] at hcard
          have hkey : (nd.getKey i).key = x.key := by rw [hslot0]
          have hval : (nd.getKey i).value = x.value := by rw [hslot0]
          have hnext : nd.nextLevel.get i = x.nextLevel := by rw [hslot0]; rfl
          -- the key itself
          obtain ⟨res₁, hsave, hres₁⟩ := save_eq ⟨setAt order lvl x.key base, s.res⟩ x.value
          -- the layer below
          obtain ⟨res₂, hbelow, hres₂⟩ := hwalk x.nextLevel next fpN
            ⟨setAt order lvl x.key base, res₁⟩ hx (by omega) (hbase.setAt hp x.key)
          -- the remaining keys
          obtain ⟨s', hrun, hs', hres'⟩ := ih (i + 1) rest fpR
            ⟨setAt order lvl x.key base, res₂⟩
            (fun j hj => by
              have := hslot (j + 1) (by simpa using hj)
              rw [show i + 1 + j = i + (j + 1) by omega]
              simpa using this)
            hrest (by omega) (by simp)
          refine ⟨s', ?_, hs', ?_⟩
          · simp only [List.length_cons, keysFrom, setPath_eq hlvl, hkey, hs, hval, hnext,
              Bind.bind, Except.bind, hsave, hbelow, Nat.add_zero, hrun]
          · rw [hres', hres₂, hres₁, rulesOf_cons]
            simp only [add_assoc]

/-- The loop over the keys of a compressed node, which sets the fields of their levels. -/
theorem keysFrom_compressed (hp : order.IsPermutation) {nd : Node V} :
    ∀ (init : List (KeyInfo V)) (last : KeyInfo V) (i lvl : ℕ) (next : Trie Range1d V)
      (fp : Multiset ℕ) (s : State cfg.D V), lvl + init.length < cfg.D →
      (∀ x ∈ init, x.nextLevel = none) →
      (∀ j, j < init.length + 1 → (init ++ [last])[j]? = some (nd.getKey (i + j))) →
      WalksLink cfg sh mem order fuel (lvl + init.length + 1) →
      Denotes cfg sh mem (lvl + init.length + 1) (.link last.nextLevel) next fp →
      fp.card ≤ fuel → Wild cfg.keyBytes order lvl s.actualPath →
      ∃ res, keysFrom (toRulesFrom cfg mem order fuel) nd order 1 (init.length + 1) i lvl s =
          .ok ⟨pathWith order lvl ((init ++ [last]).map KeyInfo.key) s.actualPath, res⟩ ∧
        (res : Multiset (RuleSpec cfg.D V)) =
          s.res + rulesOf order lvl (thread (init ++ [last]) next) s.actualPath := by
  intro init
  induction init with
  | nil =>
      intro last i lvl next fp s hlvl _ hslot hwalk hd hcard hs
      have hslot0 : last = nd.getKey i := by simpa using hslot 0 (by simp)
      have hkey : (nd.getKey i).key = last.key := by rw [hslot0]
      have hval : (nd.getKey i).value = last.value := by rw [hslot0]
      have hnext : nd.nextLevel.get i = last.nextLevel := by rw [hslot0]; rfl
      simp only [List.length_nil, Nat.add_zero] at hlvl hwalk hd
      obtain ⟨res₁, hsave, hres₁⟩ :=
        save_eq ⟨setAt order lvl last.key s.actualPath, s.res⟩ last.value
      obtain ⟨res₂, hbelow, hres₂⟩ := hwalk last.nextLevel next fp
        ⟨setAt order lvl last.key s.actualPath, res₁⟩ hd hcard (hs.setAt hp last.key)
      refine ⟨res₂, ?_, ?_⟩
      · simp only [List.length_nil, keysFrom, setPath_eq hlvl, hkey, hval, hnext, Bind.bind,
          Except.bind, hsave, hbelow]
        rfl
      · rw [hres₂, hres₁]
        simp [thread, rulesOf_cons, add_assoc]
  | cons x init ih =>
      intro last i lvl next fp s hlvl hnone hslot hwalk hd hcard hs
      simp only [List.length_cons] at hlvl hslot hwalk hd
      have hslot0 : x = nd.getKey i := by simpa using hslot 0 (by simp)
      have hkey : (nd.getKey i).key = x.key := by rw [hslot0]
      have hval : (nd.getKey i).value = x.value := by rw [hslot0]
      have hnext : nd.nextLevel.get i = none := by
        rw [← hnone x (by simp), hslot0]
        rfl
      have hlevel : lvl + (init.length + 1) + 1 = lvl + 1 + init.length + 1 := by omega
      rw [hlevel] at hwalk hd
      obtain ⟨res₁, hsave, hres₁⟩ := save_eq ⟨setAt order lvl x.key s.actualPath, s.res⟩ x.value
      obtain ⟨res₂, hrun, hres₂⟩ := ih last (i + 1) (lvl + 1) next fp
        ⟨setAt order lvl x.key s.actualPath, res₁⟩ (by omega) (fun y hy => hnone y (by simp [hy]))
        (fun j hj => by
          have := hslot (j + 1) (by omega)
          rw [show i + 1 + j = i + (j + 1) by omega]
          simpa using this)
        hwalk hd hcard (hs.setAt hp x.key)
      refine ⟨res₂, ?_, ?_⟩
      · have hnull : ∀ s' : State cfg.D V, toRulesFrom cfg mem order fuel none (lvl + 1) s' =
            .ok s' := by
          intro s'
          cases fuel <;> rfl
        rw [List.length_cons, keysFrom]
        simp only [setPath_eq (show lvl < cfg.D by omega), hkey, hval, hnext, Bind.bind,
          Except.bind, hsave, hnull, hrun]
        rfl
      · rw [hres₂, hres₁]
        simp [thread, rulesOf_cons, add_assoc]

omit [RuleValue V] in
/-- The loop behind a compressed node turns the fields of its levels back to wildcards. -/
theorem resetFrom_eq (hp : order.IsPermutation) (ks : List Range1d) :
    ∀ (lvl : ℕ) (path : Vector Range1d cfg.D) (res : List (RuleSpec cfg.D V)),
      lvl + ks.length ≤ cfg.D → Wild cfg.keyBytes order lvl path →
        resetFrom cfg.keyBytes order ks.length lvl ⟨pathWith order lvl ks path, res⟩ =
          .ok ⟨path, res⟩ := by
  induction ks with
  | nil => exact fun _ _ _ _ _ => rfl
  | cons k ks ih =>
      intro lvl path res hlvl hpath
      simp only [List.length_cons] at hlvl
      have hback : setAt order lvl (Range1d.wildcard cfg.keyBytes)
          (pathWith order (lvl + 1) ks (setAt order lvl k path)) =
            pathWith order (lvl + 1) ks path := by
        rw [setAt_pathWith hp _ _ _ _ (by omega), setAt_setAt, hpath lvl le_rfl]
      rw [List.length_cons, resetFrom, setPath_eq (by omega)]
      simp only [Bind.bind, Except.bind, pathWith, hback]
      exact ih (lvl + 1) path res (by omega) hpath.mono

/-- The loop over the children of a node. -/
theorem childrenFrom_adds {f : Option ℕ → ℕ → State cfg.D V → Except Fault (State cfg.D V)}
    {nd : Node V} {cs : List ℕ} {ts : List (Trie Range1d V)} (path : Vector Range1d cfg.D)
    (hf : List.Forall₂ (fun c t => ∀ s : State cfg.D V, s.actualPath = path →
      Adds (f (some c) lvl s) s (rulesOf order lvl t path)) cs ts) :
    ∀ (i : ℕ) (s : State cfg.D V), s.actualPath = path →
      (∀ j, j < cs.length → cs[j]? = nd.childIndex.get (i + j)) →
        Adds (childrenFrom f nd lvl cs.length i s) s
          (ts.map fun t => rulesOf order lvl t path).sum := by
  induction hf with
  | nil => exact fun i s _ _ => ⟨s.res, rfl, by simp⟩
  | @cons c t cs ts hc _ ih =>
      intro i s hs hslot
      have hslot0 : nd.childIndex.get i = some c := by simpa using (hslot 0 (by simp)).symm
      obtain ⟨res₁, hrun₁, hres₁⟩ := hc s hs
      obtain ⟨res₂, hrun₂, hres₂⟩ := ih (i + 1) ⟨s.actualPath, res₁⟩ hs fun j hj => by
        have := hslot (j + 1) (by simpa using hj)
        rw [show i + 1 + j = i + (j + 1) by omega]
        simpa using this
      refine ⟨res₂, ?_, ?_⟩
      · simp only [List.length_cons, childrenFrom, hslot0, hrun₁, hrun₂, Bind.bind, Except.bind]
      · rw [hres₂, hres₁, List.map_cons, List.sum_cons, add_assoc]

variable (order) in
/-- The keys of a node and the keys of its children store together what the layer stores. -/
theorem rulesOf_chain {P : ℕ → List (KeyInfo V) → Multiset ℕ → Prop} {ks its : List (KeyInfo V)}
    {cs : List ℕ} {fp : Multiset ℕ} (h : Chain P ks cs its fp) (path : Vector Range1d cfg.D) :
    ∀ (t : Trie Range1d V) (fpI : Multiset ℕ), Denotes cfg sh mem lvl (.items its) t fpI →
      ∃ (tk : Trie Range1d V) (fpK : Multiset ℕ) (ts : List (Trie Range1d V)),
        Denotes cfg sh mem lvl (.items ks) tk fpK ∧ fpK ≤ fpI ∧
        List.Forall₂ (fun c tc => ∃ itsC fpC fpJ, P c itsC fpC ∧ fpC ≤ fp ∧ fpJ ≤ fpI ∧
          Denotes cfg sh mem lvl (.items itsC) tc fpJ) cs ts ∧
        rulesOf order lvl t path =
          rulesOf order lvl tk path + (ts.map fun t => rulesOf order lvl t path).sum := by
  induction h with
  | @last c its fp hc =>
      intro t fpI hd
      exact ⟨.nil, 0, [t], .nil, Multiset.zero_le _,
        .cons ⟨its, fp, fpI, hc, le_rfl, le_rfl, hd⟩ .nil, by simp⟩
  | @cons c cs k ks its its' fp fp' hc _ ih =>
      intro t fpI hd
      obtain ⟨A, n, B, fp₁, fpN, fp₂, rfl, rfl, hA, hn, hB⟩ := hd.next
      obtain ⟨tk, fpK, ts, hk, hle, hts, heq⟩ := ih B fp₂ hB
      refine ⟨.cons k.key k.value n tk, fpN + fpK, A :: ts, .cons hn hk, ?_, ?_, ?_⟩
      · calc fpN + fpK ≤ fpN + fp₂ := by gcongr
          _ ≤ fp₁ + (fpN + fp₂) := Multiset.le_add_left _ _
      · refine .cons ⟨its, fp, fp₁, hc, Multiset.le_add_right _ _, Multiset.le_add_right _ _, hA⟩
          (hts.imp ?_)
        rintro d td ⟨itsC, fpC, fpJ, hd, hleC, hleJ, hden⟩
        refine ⟨itsC, fpC, fpJ, hd, hleC.trans (Multiset.le_add_left _ _), ?_, hden⟩
        exact hleJ.trans ((Multiset.le_add_left _ _).trans (Multiset.le_add_left _ _))
      · rw [rulesOf_append, rulesOf_cons, rulesOf_cons, heq, List.map_cons, List.sum_cons]
        abel

omit [RuleValue V] in
/-- A leaf has no children to visit. -/
theorem childrenFrom_leaf {f : Option ℕ → ℕ → State cfg.D V → Except Fault (State cfg.D V)}
    {nd : Node V} (hnone : ∀ i, nd.childIndex.get i = none) :
    ∀ (cnt i : ℕ) (s : State cfg.D V), childrenFrom f nd lvl cnt i s = .ok s := by
  intro cnt
  induction cnt with
  | zero => exact fun _ _ => rfl
  | succ cnt ih =>
      intro i s
      rw [childrenFrom, hnone]
      exact ih (i + 1) s

/-- The walk at a node that is not compressed, from what its two loops do. -/
theorem toRulesFrom_node (hlvl : lvl < cfg.D) {n : ℕ} {s s' : State cfg.D V}
    {tk : Trie Range1d V} {rules : Multiset (RuleSpec cfg.D V)}
    (hcompr : (mem.get n).isCompressed = false)
    (hs : Wild cfg.keyBytes order lvl s.actualPath)
    (hrun : keysFrom (toRulesFrom cfg mem order fuel) (mem.get n) order 0 (mem.get n).keyCnt 0 lvl
      s = .ok s')
    (hs' : ∀ k, setAt order lvl k s'.actualPath = setAt order lvl k s.actualPath)
    (hres : (s'.res : Multiset (RuleSpec cfg.D V)) =
      s.res + rulesOf order lvl tk s.actualPath)
    (hchildren : ∀ res, Adds (childrenFrom (toRulesFrom cfg mem order fuel) (mem.get n) lvl
      ((mem.get n).keyCnt + 1) 0 ⟨s.actualPath, res⟩) ⟨s.actualPath, res⟩ rules) :
    Adds (toRulesFrom cfg mem order (fuel + 1) (some n) lvl s) s
      (rulesOf order lvl tk s.actualPath + rules) := by
  obtain ⟨res, hrun', hres'⟩ := hchildren s'.res
  refine ⟨res, ?_, ?_⟩
  · have hback : setAt order lvl (Range1d.wildcard cfg.keyBytes) s'.actualPath = s.actualPath := by
      rw [hs', hs lvl le_rfl]
    rw [toRulesFrom]
    simp only [hcompr, Bool.false_eq_true, if_false, hrun, Bind.bind, Except.bind,
      setPath_eq hlvl, hback, hrun']
  · rw [hres', hres, add_assoc]

/-- The walk through the nodes of a layer. -/
theorem toRulesFrom_layer (hp : order.IsPermutation) (hlvl : lvl < cfg.D) :
    ∀ (fuel h : ℕ) (par : Option ℕ) (n : ℕ) (its : List (KeyInfo V)) (fp : Multiset ℕ)
      (t : Trie Range1d V) (fpI : Multiset ℕ) (s : State cfg.D V),
      (∀ f < fuel, WalksLink cfg sh mem order f (lvl + 1)) →
      Layer cfg mem h par n its fp → Denotes cfg sh mem lvl (.items its) t fpI →
      fp.card + fpI.card ≤ fuel → Wild cfg.keyBytes order lvl s.actualPath →
        Adds (toRulesFrom cfg mem order fuel (some n) lvl s) s
          (rulesOf order lvl t s.actualPath) := by
  intro fuel
  induction fuel with
  | zero =>
      intro h par n its fp t fpI s _ hL _ hcard _
      have := Multiset.card_pos_iff_exists_mem.mpr ⟨n, hL.root_mem⟩
      omega
  | succ fuel ih =>
      intro h par n its fp t fpI s hwalk hL hd hcard hs
      have hwalk' := hwalk fuel (Nat.lt_succ_self _)
      have hcompr := hL.isCompressed
      cases h with
      | zero =>
          obtain ⟨hleaf, -, rfl⟩ := hL
          simp only [Multiset.card_singleton] at hcard
          obtain ⟨s', hrun, hs', hres⟩ := keysFrom_eq hp hlvl hwalk' s.actualPath hs its 0 t fpI s
            (fun j hj => by simpa using hleaf.getKey j hj) hd (by omega) fun _ => rfl
          rw [← hleaf.keyCnt] at hrun
          have := toRulesFrom_node hlvl hcompr hs hrun hs' hres fun res =>
            ⟨res, childrenFrom_leaf hleaf.child _ _ _, (add_zero _).symm⟩
          simpa using this
      | succ h =>
          obtain ⟨ks, cs, fp', hnode, -, -, hch, rfl⟩ := hL
          simp only [Multiset.card_cons] at hcard
          obtain ⟨tk, fpK, ts, hk, hle, hts, heq⟩ :=
            rulesOf_chain order hch s.actualPath t fpI hd
          obtain ⟨s', hrun, hs', hres⟩ := keysFrom_eq hp hlvl hwalk' s.actualPath hs ks 0 tk fpK s
            (fun j hj => by simpa using hnode.getKey j hj) hk
            (by have := Multiset.card_le_card hle; omega) fun _ => rfl
          rw [← hnode.keyCnt] at hrun
          rw [heq]
          refine toRulesFrom_node hlvl hcompr hs hrun hs' hres fun res => ?_
          have hlen : (mem.get n).keyCnt + 1 = cs.length := by
            rw [hnode.keyCnt, hch.length_eq]
          rw [hlen]
          refine childrenFrom_adds s.actualPath ?_ 0 _ rfl fun j hj => by
            simpa using hnode.child j hj
          refine hts.imp ?_
          rintro c tc ⟨itsC, fpC, fpJ, hc, hleC, hleJ, hden⟩ s₁ hs₁
          have h₁ := Multiset.card_le_card hleC
          have h₂ := Multiset.card_le_card hleJ
          have := ih h (some n) c itsC fpC tc fpJ s₁ (fun f hf => hwalk f (by omega)) hc.1 hden
            (by omega) (by rwa [hs₁])
          rwa [hs₁] at this

/-- The walk through a compressed node. -/
theorem toRulesFrom_compressed (hp : order.IsPermutation) {n : ℕ} {init : List (KeyInfo V)}
    {last : KeyInfo V} {next : Trie Range1d V} {fp : Multiset ℕ} {s : State cfg.D V}
    (hlvl : lvl + init.length < cfg.D)
    (hn : (mem.get n).CompressedNode cfg sh lvl init last)
    (hwalk : WalksLink cfg sh mem order fuel (lvl + init.length + 1))
    (hd : Denotes cfg sh mem (lvl + init.length + 1) (.link last.nextLevel) next fp)
    (hcard : fp.card ≤ fuel) (hs : Wild cfg.keyBytes order lvl s.actualPath) :
    Adds (toRulesFrom cfg mem order (fuel + 1) (some n) lvl s) s
      (rulesOf order lvl (thread (init ++ [last]) next) s.actualPath) := by
  obtain ⟨res, hrun, hres⟩ := keysFrom_compressed hp init last 0 lvl next fp s hlvl hn.nextLevel
    (fun j hj => by simpa using hn.getKey j hj) hwalk hd hcard hs
  refine ⟨res, ?_, hres⟩
  have hreset := resetFrom_eq hp ((init ++ [last]).map KeyInfo.key) lvl s.actualPath res
    (by simp; omega) hs
  rw [List.length_map, List.length_append, List.length_singleton] at hreset
  rw [toRulesFrom]
  simp only [hn.isCompressed, if_true, hn.keyCnt, hrun, Bind.bind, Except.bind, hreset]

variable (sh mem) in
/-- The walk below a link adds what the trie there stores. -/
theorem walksLink (hp : order.IsPermutation) :
    ∀ fuel lvl, WalksLink cfg sh mem order fuel lvl := by
  intro fuel
  induction fuel using Nat.strongRecOn with
  | ind fuel ih =>
      intro lvl l t fp s hd hcard hs
      cases hd with
      | null =>
          refine ⟨s.res, ?_, by simp⟩
          cases fuel <;> rfl
      | @layer _ h root its _ fp fpI hlvl hL _ _ hd =>
          rw [Multiset.card_add] at hcard
          exact toRulesFrom_layer hp hlvl fuel h none root its fp t fpI s
            (fun f hf => ih f hf (lvl + 1)) hL hd hcard hs
      | @compressed _ root init last next fp hlvl hn hd =>
          rw [Multiset.card_cons] at hcard
          obtain ⟨fuel, rfl⟩ : ∃ f, fuel = f + 1 := ⟨fuel - 1, by omega⟩
          exact toRulesFrom_compressed hp hlvl hn (ih fuel (Nat.lt_succ_self _) _) hd (by omega) hs

end Walk

/-! ## The rules that were inserted -/

section Sequence

variable {order : DimensionOrder D} {bytes : ℕ}

omit [RuleValue V] in
theorem setAt_eq_self_iff {i : ℕ} {d : Fin D} (hd : order[i]? = some d) {k : Range1d}
    {path : Vector Range1d D} : setAt order i k path = path ↔ path.get d = k := by
  simp only [setAt, hd]
  constructor
  · intro h
    rw [← h]
    exact Vector.getElem_set_self d.isLt
  · rintro rfl
    exact Vector.set_getElem_self d.isLt

/-- The path holds the sequence that was written into it. -/
theorem setAt_pathWith_self (hp : order.IsPermutation) (ks : List Range1d) :
    ∀ (lvl j : ℕ) (k : Range1d) (path : Vector Range1d D), ks[j]? = some k →
      setAt order (lvl + j) k (pathWith order lvl ks path) = pathWith order lvl ks path := by
  induction ks with
  | nil => simp
  | cons a ks ih =>
      intro lvl j k path hk
      rw [pathWith]
      cases j with
      | zero =>
          obtain rfl : a = k := by simpa using hk
          rw [Nat.add_zero, setAt_pathWith hp _ _ _ _ (by omega), setAt_setAt]
      | succ j =>
          rw [show lvl + (j + 1) = lvl + 1 + j by omega]
          exact ih (lvl + 1) j k _ (by simpa using hk)

/-- The levels behind the sequence stay wildcards. -/
theorem Wild.pathWith (hp : order.IsPermutation) (ks : List Range1d) :
    ∀ (lvl : ℕ) (path : Vector Range1d D), Wild bytes order lvl path →
      Wild bytes order (lvl + ks.length) (pathWith order lvl ks path) := by
  induction ks with
  | nil => exact fun _ _ h => h
  | cons k ks ih =>
      intro lvl path h
      have := ih (lvl + 1) _ (h.setAt hp k)
      rwa [show lvl + 1 + ks.length = lvl + (k :: ks).length by simp; omega] at this

/-- A path of wildcards. -/
theorem wild_replicate (bytes : ℕ) (order : DimensionOrder D) :
    Wild bytes order 0 (Vector.replicate D (Range1d.wildcard bytes)) := by
  intro i _
  cases hd : order[i]? with
  | none => simp only [setAt, hd]
  | some d =>
      rw [setAt_eq_self_iff hd]
      exact Vector.getElem_replicate d.isLt

omit [RuleValue V] in
/-- The keys of a rule, as far as it needs them, make the box of the rule. -/
theorem pathWith_eq_first (hp : order.IsPermutation) {r : RuleSpec D V} {π : List Range1d}
    (hπ : π <+: r.sequence order) (hlen : r.keyLength bytes order ≤ π.length) :
    pathWith order 0 π (Vector.replicate D (Range1d.wildcard bytes)) = r.first := by
  refine Vector.ext fun d hd => ?_
  obtain ⟨i, hi, hord⟩ := hp.exists_index ⟨d, hd⟩
  have hseq := r.getElem?_sequence order hi
  rw [rangeAt_eq hord] at hseq
  rcases Nat.lt_or_ge i π.length with hlt | hge
  · have hk : π[i]? = some (r.first.get ⟨d, hd⟩) := by
      obtain ⟨τ, hτ⟩ := hπ
      rwa [← hτ, List.getElem?_append_left hlt] at hseq
    have := setAt_pathWith_self hp π 0 i _ (Vector.replicate D (Range1d.wildcard bytes)) hk
    rw [Nat.zero_add] at this
    exact (setAt_eq_self_iff hord).mp this
  · have hw := isWildcard_of_keyLength_le (hlen.trans hge) hseq
    rw [Range1d.isWildcard_iff] at hw
    have := (wild_replicate bytes order).pathWith hp π 0 _ i (by omega)
    have := (setAt_eq_self_iff hord).mp this
    exact this.trans hw.symm

end Sequence

section Run

variable {cfg : BTreeCfg} {sh : CompressedShape}

/-- The extraction lists what the trie of the tree stores. -/
theorem BTree.toRules_of_denotes {pool : NodeAllocator V} {t : BTree cfg.D} {trie : Trie Range1d V}
    {fp rest : Multiset ℕ} (hp : t.dimensionOrder.IsPermutation)
    (hd : Denotes cfg sh pool.mempool 0 (.link t.root) trie fp) (ho : Owns pool (fp + rest)) :
    ∃ out, t.toRules cfg pool = .ok out ∧ (out : Multiset (RuleSpec cfg.D V)) =
      rulesOf t.dimensionOrder 0 trie (Vector.replicate cfg.D (Range1d.wildcard cfg.keyBytes)) := by
  have hcard := ho.card_le
  rw [Multiset.card_add] at hcard
  set any := Vector.replicate cfg.D (Range1d.wildcard cfg.keyBytes) with hany
  obtain ⟨res, hrun, hres⟩ := walksLink sh pool.mempool hp (callDepth cfg pool) 0 t.root trie fp
    ⟨any, []⟩ hd (by simp only [callDepth]; omega) (wild_replicate _ _)
  refine ⟨res, ?_, by simpa using hres⟩
  unfold BTree.toRules
  simp only [← hany, hrun, Bind.bind, Except.bind]
  rfl

/-- The extraction of a tree that stores each of the rules once yields these rules. -/
theorem BTree.Stores.toRules {pool : NodeAllocator V} {t : BTree cfg.D}
    {order : DimensionOrder cfg.D} {rules : List (RuleSpec cfg.D V)} {trie : Trie Range1d V}
    {fp rest : Multiset ℕ} (hD : 0 < cfg.D) (hp : order.IsPermutation)
    (hvalid : ∀ r ∈ rules, isValid r.second = true)
    (hdistinct : rules.Pairwise fun r s => r.first ≠ s.first)
    (ht : t.Stores cfg pool order rules trie fp)
    (honce : Trie.Once isValid (Pcv.keyLength cfg.keyBytes) (entries order rules) trie)
    (ho : Owns pool (fp + rest)) :
    ∃ out, t.toRules cfg pool = .ok out ∧ out.Perm rules := by
  set any := Vector.replicate cfg.D (Range1d.wildcard cfg.keyBytes) with hany
  obtain ⟨res, hrun, hres⟩ := BTree.toRules_of_denotes (by rwa [ht.dimensionOrder]) ht.holds ho
  rw [ht.dimensionOrder, ← hany] at hres
  refine ⟨res, hrun, ?_⟩
  -- the box of an entry is the box of its rule
  have hbox : ∀ r : RuleSpec cfg.D V, ∀ π, π <+: r.sequence order →
      Pcv.keyLength cfg.keyBytes (r.sequence order) ≤ π.length →
        pathWith order 0 π any = r.first := fun r π hπ hlen => pathWith_eq_first hp hπ hlen
  have hself : ∀ r : RuleSpec cfg.D V, pathWith order 0 (r.sequence order) any = r.first :=
    fun r => hbox r _ (List.prefix_refl _) (keyLength_le _ (by simpa using hD))
  have hentries : (entries order rules).map (fun e => (pathWith order 0 e.1 any, e.2)) =
      rules.map fun r => (r.first, r.second) := by
    rw [entries, List.map_map]
    exact List.map_congr_left fun r _ => by simp [hself]
  have hperm := ht.represents.toList_perm
    (fun a h => Nat.lt_irrefl _ h.low_lt) honce ?_ ?_ (fun π => pathWith order 0 π any) ?_ ?_
  · rw [hentries] at hperm
    have := hperm.map fun e => (⟨e.1, e.2⟩ : RuleSpec cfg.D V)
    simp only [List.map_map] at this
    refine (Multiset.coe_eq_coe.mp ?_).trans (this.trans (.of_eq (List.map_id _)))
    rw [hres]
    simp [rulesOf, Function.comp_def]
  · intro e he
    obtain ⟨r, hr, rfl⟩ := List.mem_map.mp he
    exact hvalid r hr
  · rw [entries, List.map_map, List.Nodup, List.pairwise_map]
    exact hdistinct.imp fun hne heq => hne ((RuleSpec.sequence_eq_iff hp).mp heq)
  · intro e he π hπ hlen
    obtain ⟨r, -, rfl⟩ := List.mem_map.mp he
    rw [hbox r π hπ hlen, hself]
  · intro e he e' he' heq
    obtain ⟨r, -, rfl⟩ := List.mem_map.mp he
    obtain ⟨s, -, rfl⟩ := List.mem_map.mp he'
    rw [hself, hself] at heq
    exact (RuleSpec.sequence_eq_iff hp).mpr heq

/-- A tree of rules that are pairwise different and compatible keeps each of them once. -/
theorem BTree.ensures_insertAll_once {pool : NodeAllocator V} {order : DimensionOrder cfg.D}
    {rules : List (RuleSpec cfg.D V)} {rest : Multiset ℕ} (hT : 2 ≤ cfg.T) (hD : 0 < cfg.D)
    (hpc : cfg.pathCompression = true) (hp : order.IsPermutation)
    (hvalid : ∀ r ∈ rules, r.Valid cfg.keyBytes)
    (hdistinct : rules.Pairwise fun r s => r.first ≠ s.first)
    (hcomp : rules.Pairwise (RuleSpec.Compatible cfg.keyBytes order)) (ho : Owns pool rest) :
    Ensures OnlyBadAlloc (BTree.insertAll cfg ⟨none, order⟩ rules) pool fun t pool' =>
      ∃ trie fp, t.Stores cfg pool' order rules trie fp ∧
        Trie.Once isValid (Pcv.keyLength cfg.keyBytes) (entries order rules) trie ∧
          Owns pool' (fp + rest) := by
  refine Ensures.foldlM (I := fun pre t pool' => ∃ trie fp,
    BTree.Stores cfg pool' t order pre trie fp ∧
      Trie.Once isValid (Pcv.keyLength cfg.keyBytes) (entries order pre) trie ∧
        Owns pool' (fp + rest)) ?_ ?_
  · rintro pre r suf t pool' rfl ⟨trie, fp, ht, honce, ho'⟩
    have hpair := List.pairwise_append.mp hcomp
    have hdiff := List.pairwise_append.mp hdistinct
    refine (ht.ensures_insert hT hD hpc (fun s hs => hvalid s (by simp [hs]))
      (hvalid r (by simp)) (fun s hs => hpair.2.2 s hs r (by simp)) ho').mono ?_
    rintro t' pool'' ⟨trie', fp', ht', hins, ho'', -, -⟩
    refine ⟨trie', fp', ht', ?_, ho''⟩
    have hfill : fillValue cfg r.second = RuleValue.invalid := by simp [fillValue, hpc]
    rw [InsRule, hfill] at hins
    have hnew : ∀ e ∈ entries order pre, e.1 ≠ r.sequence order := by
      intro e he heq
      obtain ⟨s, hs, rfl⟩ := List.mem_map.mp he
      exact hdiff.2.2 s hs r (by simp) ((RuleSpec.sequence_eq_iff hp).mp heq)
    rw [entries, List.map_append]
    exact honce.insert (fun _ _ h => h.low_lt) (by simp) (by simp) ht.represents
      (keyLength_le _ (by simpa using hD)) (entries_told_apart order pre r)
      (length_of_mem_entries order pre r) hnew hins
  · exact ⟨.nil, 0, BTree.stores_nil order, Trie.once_nil _, by simpa using ho⟩

/-- The extraction undoes the insertions: it yields the inserted rules, each of them once. -/
theorem BTree.toRules_insertAll {order : DimensionOrder cfg.D} {rules : List (RuleSpec cfg.D V)}
    (hT : 2 ≤ cfg.T) (hD : 0 < cfg.D) (hpc : cfg.pathCompression = true)
    (hp : order.IsPermutation)
    (hvalid : ∀ r ∈ rules, r.Valid cfg.keyBytes ∧ isValid r.second = true)
    (hdistinct : rules.Pairwise fun r s => r.first ≠ s.first)
    (hcomp : rules.Pairwise (RuleSpec.Compatible cfg.keyBytes order)) (itemCnt : ℕ) :
    Ensures OnlyBadAlloc (BTree.insertAll cfg ⟨none, order⟩ rules)
      (DynamicMempool.make itemCnt (Node.make cfg)) fun t pool =>
        ∃ out, t.toRules cfg pool = .ok out ∧ out.Perm rules := by
  refine (BTree.ensures_insertAll_once hT hD hpc hp (fun r hr => (hvalid r hr).1) hdistinct hcomp
    (owns_make itemCnt _)).mono ?_
  rintro t pool ⟨trie, fp, ht, honce, ho⟩
  exact ht.toRules hD hp (fun r hr => (hvalid r hr).2) hdistinct honce ho

/-- Two fields of one byte; a box, a rule inside it and a rule for one field only. -/
theorem BTree.toRules_insertAll_boxes :
    Ensures OnlyBadAlloc
      (BTree.insertAll ⟨1, 2, 2, true⟩ ⟨none, #v[1, 0]⟩
        [⟨#v[⟨0, 255⟩, ⟨3, 9⟩], RuleValueInt.make 1 1⟩, ⟨#v[⟨4, 5⟩, ⟨3, 9⟩], RuleValueInt.make 2 2⟩,
          ⟨#v[⟨7, 7⟩, ⟨10, 12⟩], RuleValueInt.make 3 3⟩])
      (DynamicMempool.make 64 (Node.make ⟨1, 2, 2, true⟩)) fun t pool =>
        ∃ out, t.toRules ⟨1, 2, 2, true⟩ pool = .ok out ∧ out.Perm
          [⟨#v[⟨0, 255⟩, ⟨3, 9⟩], RuleValueInt.make 1 1⟩,
            ⟨#v[⟨4, 5⟩, ⟨3, 9⟩], RuleValueInt.make 2 2⟩,
            ⟨#v[⟨7, 7⟩, ⟨10, 12⟩], RuleValueInt.make 3 3⟩] :=
  BTree.toRules_insertAll (by decide) (by decide) rfl (by decide) (by decide) (by decide)
    (by decide) 64

end Run

end Pcv

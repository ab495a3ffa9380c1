import Pcv.PartitionSort.BTreeKeyIterator
import Pcv.PartitionSort.SingleLayer

/-!
# Iteration visits every key of a layer once

The positions of a layer are listed in the order of its keys: those of a child, then the key
behind it, then those of the next child.  Neighbours in this list are successor and
predecessor of each other.  At the seam between a child and a key, one of the two is found by
a descent and the other by a climb, which `First` and `Last` describe for a whole subtree.
-/

namespace Pcv

open BTreeKeyIterator

variable {V : Type} {cfg : BTreeCfg} {mem : Store (Node V)}
variable {depth h n : ℕ} {par : Option ℕ} {its ks : List (KeyInfo V)} {fp : Multiset ℕ}
variable {cs : List ℕ}

namespace BTreeKeyIterator

/-- `left_most`. -/
def leftMostFrom (mem : Store (Node V)) : ℕ → ℕ → Except Fault ℕ
  | 0, _ => .error .nonTermination
  | fuel + 1, n =>
      match (mem.get n).childIndex.get 0 with
      | some c => leftMostFrom mem fuel c
      | none => .ok n

/-- `begin`, of an iterator that is made for a root. -/
def begin (mem : Store (Node V)) (depth root : ℕ) : Except Fault State := do
  return ⟨some (← leftMostFrom mem depth root), 0⟩

/-- The loop `for (; it != end; ++it)`, or with `--it`: the states in which the body is run. -/
def visits (step : State → Except Fault State) : ℕ → State → Except Fault (List State)
  | 0, s => if s = State.end then .ok [] else .error .nonTermination
  | fuel + 1, s =>
      if s = State.end then .ok []
      else do
        let rest ← visits step fuel (← step s)
        return s :: rest

/-- A node and the index of a key in it. -/
abbrev Position := ℕ × ℕ

/-- The state at a position. -/
def State.at (q : Position) : State := ⟨some q.1, q.2⟩

/-- `operator*`. -/
def getKey (mem : Store (Node V)) (q : Position) : KeyInfo V := (mem.get q.1).getKey q.2

/-- Each of the two positions is found from the other one. -/
def Neighbours (mem : Store (Node V)) (depth : ℕ) (a b : Position) : Prop :=
  (State.at a).succ mem depth = .ok (State.at b) ∧ (State.at b).pred mem depth = .ok (State.at a)

/-- The first position below node `n`: the descent to the left ends there, and the climb from
there leaves node `n`. -/
structure First (mem : Store (Node V)) (h : ℕ) (par : Option ℕ) (n : ℕ) (q : Position) :
    Prop where
  isLeaf : (mem.get q.1).isLeaf = true
  index : q.2 = 0
  leftMost : ∀ fuel, h < fuel → BTreeSearch.leftMost mem fuel (some n) = .ok q.1
  leftMostFrom : ∀ fuel, h < fuel → leftMostFrom mem fuel n = .ok q.1
  climb : ∀ fuel, predClimb mem (fuel + h) (mem.get q.1).parent q.1 = predClimb mem fuel par n

/-- The last position below node `n`: the descent to the right ends there, and the climb from
there leaves node `n`. -/
structure Last (mem : Store (Node V)) (h : ℕ) (par : Option ℕ) (n : ℕ) (q : Position) :
    Prop where
  isLeaf : (mem.get q.1).isLeaf = true
  index : q.2 + 1 = (mem.get q.1).keyCnt
  rightMost : ∀ fuel, h < fuel → BTreeSearch.rightMost mem fuel (some n) = .ok q.1
  climb : ∀ fuel, succClimb mem (fuel + h) (mem.get q.1).parent q.1 = succClimb mem fuel par n

/-- The positions below node `n`, in the order of the keys. -/
structure Placed (mem : Store (Node V)) (depth h : ℕ) (par : Option ℕ) (n : ℕ)
    (its : List (KeyInfo V)) (fp : Multiset ℕ) (ps : List Position) : Prop where
  keys : ps.map (getKey mem) = its
  mem_iff : ∀ q, q ∈ ps ↔ q.1 ∈ fp ∧ q.2 < (mem.get q.1).keyCnt
  chain : ps.IsChain (Neighbours mem depth)
  first : ∃ q, ps.head? = some q ∧ First mem h par n q
  last : ∃ q, ps.getLast? = some q ∧ Last mem h par n q

/-! ## The children of a node -/

theorem indexOfChildFrom_eq {p : Node V} {c : ℕ} (cnt i j : ℕ) (hij : i ≤ j) (hj : j < i + cnt)
    (hbefore : ∀ k, i ≤ k → k < j → p.childIndex.get k ≠ some c)
    (hc : p.childIndex.get j = some c) : indexOfChildFrom p c cnt i = j := by
  induction cnt generalizing i with
  | zero => omega
  | succ cnt ih =>
    rw [indexOfChildFrom]
    rcases Nat.eq_or_lt_of_le hij with rfl | hlt
    · rw [if_pos hc]
    · rw [if_neg (hbefore i le_rfl hlt)]
      exact ih (i + 1) hlt (by omega) fun k hk => hbefore k (by omega)

/-- A child is found at its place. -/
theorem indexOfChild_eq (hn : (mem.get n).InnerNode par ks cs) (hcs : cs.Nodup)
    (hlen : cs.length = ks.length + 1) {j c : ℕ} (hc : cs[j]? = some c) :
    indexOfChild (mem.get n) c = j := by
  have hj : j < cs.length := (List.getElem?_eq_some_iff.mp hc).1
  refine indexOfChildFrom_eq _ 0 j (Nat.zero_le j) (by rw [hn.keyCnt]; omega) (fun k _ hk => ?_)
    (by rw [← hn.child j hj, hc])
  rw [← hn.child k (by omega)]
  intro heq
  have := (List.nodup_iff_getElem?_ne_getElem?.mp hcs) k j hk hj
  exact this (heq.trans hc.symm)

/-! ## The seams between the children and the keys -/

section Seams

variable {j c : ℕ} {q : Position}

/-- The last position of a child and the key behind the child. -/
theorem Last.neighbours (hq : Last mem h (some n) c q) (hn : (mem.get n).InnerNode par ks cs)
    (hc : cs[j]? = some c) (hidx : indexOfChild (mem.get n) c = j) (hj : j < ks.length)
    (hdepth : h + 1 < depth) : Neighbours mem depth q (n, j) := by
  obtain ⟨fuel, rfl⟩ : ∃ fuel, depth = fuel + 1 + h := ⟨depth - h - 1, by omega⟩
  have hchild : (mem.get n).childIndex.get j = some c := by
    rw [← hn.child j (List.getElem?_eq_some_iff.mp hc).1, hc]
  constructor
  · have hindex := hq.index
    have hnot : ¬ (q.2 : ℤ) < ((mem.get q.1).keyCnt : ℤ) - 1 := by omega
    have hne : j ≠ (mem.get n).keyCnt := by
      rw [hn.keyCnt]
      exact hj.ne
    simp only [State.succ, State.at, getSuccGlobal, hq.isLeaf, if_true, if_neg hnot, hq.climb]
    rw [succClimb]
    simp only [hidx, if_neg hne]
  · have hindex : (mem.get q.1).keyCnt - 1 = q.2 := by
      have := hq.index
      omega
    simp only [State.pred, State.at, getPredGlobal, hn.isLeaf, Bool.false_eq_true, if_false, hchild]
    rw [hq.rightMost _ (by omega)]
    simp only [bind, Except.bind, pure, Except.pure, hindex]

/-- A key and the first position of the child behind it. -/
theorem First.neighbours (hq : First mem h (some n) c q) (hn : (mem.get n).InnerNode par ks cs)
    (hc : cs[j + 1]? = some c) (hidx : indexOfChild (mem.get n) c = j + 1)
    (hdepth : h + 1 < depth) : Neighbours mem depth (n, j) q := by
  obtain ⟨fuel, rfl⟩ : ∃ fuel, depth = fuel + 1 + h := ⟨depth - h - 1, by omega⟩
  have hchild : (mem.get n).childIndex.get (j + 1) = some c := by
    rw [← hn.child (j + 1) (List.getElem?_eq_some_iff.mp hc).1, hc]
  constructor
  · simp only [State.succ, State.at, getSuccGlobal, hn.isLeaf, Bool.false_eq_true, if_false, hchild,
      getMostLeft]
    rw [hq.leftMost _ (by omega)]
    simp only [bind, Except.bind, pure, Except.pure, hq.index]
  · have hnot : ¬ q.2 > 0 := by
      have := hq.index
      omega
    simp only [State.pred, State.at, getPredGlobal, hq.isLeaf, if_true, if_neg hnot, hq.climb]
    rw [predClimb]
    simp only [hidx, gt_iff_lt, Nat.succ_pos, if_true, Nat.add_sub_cancel]

end Seams

/-! ## The positions of a node and of its children -/

/-- The positions of the children from child `j` on, and of the keys between them. -/
structure PlacedFrom (mem : Store (Node V)) (depth h n j : ℕ) (ks : List (KeyInfo V))
    (cs : List ℕ) (its : List (KeyInfo V)) (fp : Multiset ℕ) (ps : List Position) : Prop where
  keys : ps.map (getKey mem) = its
  mem_iff : ∀ q, q ∈ ps ↔
    (q.1 ∈ fp ∧ q.2 < (mem.get q.1).keyCnt) ∨ q.1 = n ∧ j ≤ q.2 ∧ q.2 < j + ks.length
  chain : ps.IsChain (Neighbours mem depth)
  first : ∃ q c, ps.head? = some q ∧ cs.head? = some c ∧ First mem h (some n) c q
  last : ∃ q c, ps.getLast? = some q ∧ cs.getLast? = some c ∧ Last mem h (some n) c q

/-- The positions of a child, its key and the positions behind them. -/
theorem PlacedFrom.cons {k : KeyInfo V} {its' : List (KeyInfo V)} {fp' : Multiset ℕ} {c j : ℕ}
    {ps ps' : List Position} (hps : Placed mem depth h (some n) c its fp ps)
    (hps' : PlacedFrom mem depth h n (j + 1) ks cs its' fp' ps') (hkey : (mem.get n).getKey j = k)
    (hleft : ∀ q, Last mem h (some n) c q → Neighbours mem depth q (n, j))
    (hright : ∀ c' q, cs.head? = some c' → First mem h (some n) c' q →
      Neighbours mem depth (n, j) q) :
    PlacedFrom mem depth h n j (k :: ks) (c :: cs) (its ++ k :: its') (fp + fp')
      (ps ++ (n, j) :: ps') := by
  obtain ⟨f, hf, hfirst⟩ := hps.first
  obtain ⟨l, hl, hlast⟩ := hps.last
  obtain ⟨f', c', hf', hc', hfirst'⟩ := hps'.first
  obtain ⟨l', d, hl', hd, hlast'⟩ := hps'.last
  refine
    { keys := ?_
      mem_iff := fun q => ?_
      chain := ?_
      first := ⟨f, c, by rw [List.head?_append, hf, Option.some_or], rfl, hfirst⟩
      last := ⟨l', d, ?_, ?_, hlast'⟩ }
  · rw [List.map_append, List.map_cons, hps.keys, hps'.keys, getKey, hkey]
  · rw [List.mem_append, List.mem_cons, hps.mem_iff, hps'.mem_iff, Multiset.mem_add,
      List.length_cons, Prod.ext_iff]
    constructor
    · rintro (h | h | h | h)
      · exact .inl ⟨.inl h.1, h.2⟩
      · exact .inr ⟨h.1, by omega, by omega⟩
      · exact .inl ⟨.inr h.1, h.2⟩
      · exact .inr ⟨h.1, by omega, by omega⟩
    · rintro (⟨h | h, hlt⟩ | ⟨h, hle, hlt⟩)
      · exact .inl ⟨h, hlt⟩
      · exact .inr (.inr (.inl ⟨h, hlt⟩))
      · rcases Nat.eq_or_lt_of_le hle with heq | hlt'
        · exact .inr (.inl ⟨h, heq.symm⟩)
        · exact .inr (.inr (.inr ⟨h, hlt', by omega⟩))
  · refine hps.chain.append (List.isChain_cons.mpr ⟨fun b hb => ?_, hps'.chain⟩) ?_
    · obtain rfl : f' = b := by simpa [hf'] using hb
      exact hright c' f' hc' hfirst'
    · intro a ha b hb
      obtain rfl : l = a := by simpa [hl] using ha
      obtain rfl : (n, j) = b := by simpa using hb
      exact hleft l hlast
  · rw [List.getLast?_append, List.getLast?_cons, hl']
    rfl
  · rw [List.getLast?_cons, hd]
    rfl

/-- The children of a node from child `j` on; the induction is on what is left of the chain. -/
theorem PlacedFrom.exists_of_chain {ks₀ : List (KeyInfo V)} {cs₀ : List ℕ}
    (hn : (mem.get n).InnerNode par ks₀ cs₀)
    (hidx : ∀ j c, cs₀[j]? = some c → indexOfChild (mem.get n) c = j) (hdepth : h + 1 < depth)
    (hch : Chain (fun c its fp => ∃ ps, Placed mem depth h (some n) c its fp ps) ks cs its fp)
    (j : ℕ) (hks : ks₀.drop j = ks) (hcs : cs₀.drop j = cs) :
    ∃ ps, PlacedFrom mem depth h n j ks cs its fp ps := by
  induction hch generalizing j with
  | @last c its fp hc =>
    obtain ⟨ps, hps⟩ := hc
    obtain ⟨f, hf, hfirst⟩ := hps.first
    obtain ⟨l, hl, hlast⟩ := hps.last
    refine ⟨ps, hps.keys, fun q => ?_, hps.chain, ⟨f, c, hf, rfl, hfirst⟩, ⟨l, c, hl, rfl, hlast⟩⟩
    rw [hps.mem_iff, List.length_nil]
    have : ¬ (q.1 = n ∧ j ≤ q.2 ∧ q.2 < j + 0) := by omega
    simp only [this, or_false]
  | @cons c cs k ks its its' fp fp' hc _ ih =>
    obtain ⟨ps, hps⟩ := hc
    have hkj : ks₀[j]? = some k := by rw [← List.head?_drop, hks, List.head?_cons]
    have hcj : cs₀[j]? = some c := by rw [← List.head?_drop, hcs, List.head?_cons]
    have hj : j < ks₀.length := (List.getElem?_eq_some_iff.mp hkj).1
    have hcs' : cs₀.drop (j + 1) = cs := by rw [← List.tail_drop, hcs, List.tail_cons]
    obtain ⟨ps', hps'⟩ := ih (j + 1) (by rw [← List.tail_drop, hks, List.tail_cons]) hcs'
    refine ⟨_, PlacedFrom.cons hps hps' ?_ (fun q hq => ?_) fun c' q hc' hq => ?_⟩
    · exact Option.some.inj ((hn.getKey j hj).symm.trans hkj)
    · exact hq.neighbours hn hcj (hidx j c hcj) hj hdepth
    · have hcj' : cs₀[j + 1]? = some c' := by rw [← List.head?_drop, hcs', hc']
      exact hq.neighbours hn hcj' (hidx (j + 1) c' hcj') hdepth

/-! ## The positions of a layer -/

/-- The positions of a leaf. -/
theorem Placed.leaf (hn : (mem.get n).LeafNode par its) (hne : its ≠ []) :
    Placed mem depth 0 par n its {n} ((List.range its.length).map fun i => (n, i)) := by
  obtain ⟨m, hm⟩ : ∃ m, its.length = m + 1 :=
    ⟨its.length - 1, by have := List.length_pos_of_ne_nil hne; omega⟩
  have hcnt : (mem.get n).keyCnt = m + 1 := hn.keyCnt.trans hm
  refine
    { keys := ?_
      mem_iff := fun q => ?_
      chain := ?_
      first := ⟨(n, 0), by rw [hm, List.range_succ_eq_map]; rfl, hn.isLeaf, rfl, fun fuel hfuel => ?_,
        fun fuel hfuel => ?_, fun fuel => by rw [hn.parent]; rfl⟩
      last := ⟨(n, m), by rw [hm, List.range_succ]; simp, hn.isLeaf, hcnt.symm, fun fuel hfuel => ?_,
        fun fuel => by rw [hn.parent]; rfl⟩ }
  · rw [List.map_map]
    refine List.ext_getElem (by simp) fun i hi hi' => ?_
    have := hn.getKey i hi'
    rw [List.getElem?_eq_getElem hi'] at this
    simpa [getKey] using (Option.some.inj this).symm
  · rw [List.mem_map, Multiset.mem_singleton]
    constructor
    · rintro ⟨i, hi, rfl⟩
      exact ⟨rfl, by rw [hn.keyCnt]; exact List.mem_range.mp hi⟩
    · rintro ⟨hq, hlt⟩
      rw [hq, hn.keyCnt] at hlt
      exact ⟨q.2, List.mem_range.mpr hlt, Prod.ext hq.symm rfl⟩
  · rw [List.isChain_map, List.isChain_range]
    intro i hi
    have hlt : (i : ℤ) < ((mem.get n).keyCnt : ℤ) - 1 := by omega
    constructor
    · simp only [State.succ, State.at, getSuccGlobal, hn.isLeaf, if_true]
      exact if_pos hlt
    · simp only [State.pred, State.at, getPredGlobal, hn.isLeaf, if_true, gt_iff_lt, Nat.succ_pos]
      rfl
  · obtain ⟨fuel, rfl⟩ : ∃ f, fuel = f + 1 := ⟨fuel - 1, by omega⟩
    rw [BTreeSearch.leftMost, if_pos hn.isLeaf]
  · obtain ⟨fuel, rfl⟩ : ∃ f, fuel = f + 1 := ⟨fuel - 1, by omega⟩
    rw [leftMostFrom, hn.child 0]
  · obtain ⟨fuel, rfl⟩ : ∃ f, fuel = f + 1 := ⟨fuel - 1, by omega⟩
    rw [BTreeSearch.rightMost, if_pos hn.isLeaf]

/-- The first position below the first child is the first one below the node. -/
theorem First.parent {c : ℕ} {q : Position} (hq : First mem h (some n) c q)
    (hn : (mem.get n).InnerNode par ks cs) (hc : cs[0]? = some c)
    (hidx : indexOfChild (mem.get n) c = 0) : First mem (h + 1) par n q where
  isLeaf := hq.isLeaf
  index := hq.index
  leftMost := by
    intro fuel hfuel
    obtain ⟨fuel, rfl⟩ : ∃ f, fuel = f + 1 := ⟨fuel - 1, by omega⟩
    rw [BTreeSearch.leftMost, if_neg (by simp [hn.isLeaf]),
      ← hn.child 0 (List.getElem?_eq_some_iff.mp hc).1, hc]
    exact hq.leftMost fuel (by omega)
  leftMostFrom := by
    intro fuel hfuel
    obtain ⟨fuel, rfl⟩ : ∃ f, fuel = f + 1 := ⟨fuel - 1, by omega⟩
    rw [BTreeKeyIterator.leftMostFrom, ← hn.child 0 (List.getElem?_eq_some_iff.mp hc).1, hc]
    exact hq.leftMostFrom fuel (by omega)
  climb := by
    intro fuel
    rw [show fuel + (h + 1) = fuel + 1 + h by omega, hq.climb, predClimb]
    simp only [hidx, gt_iff_lt, lt_irrefl, if_false, hn.parent]

/-- The last position below the last child is the last one below the node. -/
theorem Last.parent {c : ℕ} {q : Position} (hq : Last mem h (some n) c q)
    (hn : (mem.get n).InnerNode par ks cs) (hc : cs[ks.length]? = some c)
    (hidx : indexOfChild (mem.get n) c = ks.length) : Last mem (h + 1) par n q where
  isLeaf := hq.isLeaf
  index := hq.index
  rightMost := by
    intro fuel hfuel
    obtain ⟨fuel, rfl⟩ : ∃ f, fuel = f + 1 := ⟨fuel - 1, by omega⟩
    rw [BTreeSearch.rightMost, if_neg (by simp [hn.isLeaf]), hn.keyCnt,
      ← hn.child ks.length (List.getElem?_eq_some_iff.mp hc).1, hc]
    exact hq.rightMost fuel (by omega)
  climb := by
    intro fuel
    rw [show fuel + (h + 1) = fuel + 1 + h by omega, hq.climb, succClimb]
    simp only [hidx, hn.keyCnt, if_true, hn.parent]

/-- The positions of a layer; the induction is on its height. -/
theorem Placed.exists_of_layer (hT : 2 ≤ cfg.T) (hL : Layer cfg mem h par n its fp)
    (hcnt : 0 < (mem.get n).keyCnt) (hnd : fp.Nodup) (hdepth : h < depth) :
    ∃ ps, Placed mem depth h par n its fp ps := by
  induction h generalizing par n its fp with
  | zero =>
    obtain ⟨hn, -, rfl⟩ := hL
    refine ⟨_, Placed.leaf hn fun hnil => ?_⟩
    rw [hn.keyCnt, hnil] at hcnt
    exact absurd hcnt (lt_irrefl 0)
  | succ h ih =>
    obtain ⟨ks, cs, fp', hn, hne, -, hch, rfl⟩ := hL
    obtain ⟨hnot, hnd'⟩ := Multiset.nodup_cons.mp hnd
    have hmin : 0 < cfg.minDegree := by
      simp only [BTreeCfg.minDegree]
      omega
    have hcs : cs.Nodup := by
      simpa using hch.nodup_map hnd' id fun c its fp hc => hc.1.root_mem
    have hidx : ∀ j c, cs[j]? = some c → indexOfChild (mem.get n) c = j :=
      fun j c => indexOfChild_eq hn hcs hch.length_eq
    have hplaced := hch.imp (Q := fun c its fp => ∃ ps, Placed mem depth h (some n) c its fp ps)
      fun c _ its₀ fp₀ hle hc => ih hc.1 (hmin.trans_le hc.2) (Multiset.nodup_of_le hle hnd')
        (by omega)
    obtain ⟨ps, hps⟩ := PlacedFrom.exists_of_chain hn hidx hdepth hplaced 0 rfl rfl
    obtain ⟨f, c, hf, hc, hfirst⟩ := hps.first
    obtain ⟨l, d, hl, hd, hlast⟩ := hps.last
    have hc0 : cs[0]? = some c := by rw [← hc, List.head?_eq_getElem?]
    have hd' : cs[ks.length]? = some d := by
      rw [← hd, List.getLast?_eq_getElem?, hch.length_eq, Nat.add_sub_cancel]
    refine ⟨ps, hps.keys, fun q => ?_, hps.chain, ⟨f, hf, hfirst.parent hn hc0 (hidx 0 c hc0)⟩,
      ⟨l, hl, hlast.parent hn hd' (hidx _ d hd')⟩⟩
    rw [hps.mem_iff, Multiset.mem_cons]
    constructor
    · rintro (⟨hq, hlt⟩ | ⟨hq, -, hlt⟩)
      · exact ⟨.inr hq, hlt⟩
      · exact ⟨.inl hq, by rw [hq, hn.keyCnt]; omega⟩
    · rintro ⟨hq | hq, hlt⟩
      · rw [hq, hn.keyCnt] at hlt
        exact .inr ⟨hq, Nat.zero_le _, by omega⟩
      · exact .inl ⟨hq, hlt⟩

/-! ## Whole runs -/

/-- A loop that steps along a list of positions and reaches the end behind the last one. -/
theorem visits_eq {step : State → Except Fault State} {ps : List Position}
    (hchain : ps.IsChain fun a b => step (State.at a) = .ok (State.at b))
    (hlast : ∀ q ∈ ps.getLast?, step (State.at q) = .ok State.end) {fuel : ℕ}
    (hfuel : ps.length ≤ fuel) {q : Position} (hq : ps.head? = some q) :
    visits step fuel (State.at q) = .ok (ps.map State.at) := by
  have hne : ∀ q, State.at q ≠ State.end := by
    intro q
    simp [State.at, State.end]
  induction ps generalizing fuel q with
  | nil => cases hq
  | cons a ps ih =>
    obtain rfl : a = q := by simpa using hq
    obtain ⟨fuel, rfl⟩ : ∃ f, fuel = f + 1 :=
      ⟨fuel - 1, by rw [List.length_cons] at hfuel; omega⟩
    rw [visits, if_neg (hne a)]
    cases ps with
    | nil =>
      rw [hlast a rfl]
      cases fuel <;> rfl
    | cons b ps =>
      obtain ⟨hstep, hchain⟩ := List.isChain_cons_cons.mp hchain
      have := ih hchain (fun q hq => hlast q (by simpa using hq))
        (by simpa using hfuel) (q := b) rfl
      rw [hstep]
      simp only [bind, Except.bind, this]
      rfl

end BTreeKeyIterator

/-- A layer with keys has some in its root. -/
theorem Layer.keyCnt_pos (hL : Layer cfg mem h par n its fp) (hne : its ≠ []) :
    0 < (mem.get n).keyCnt := by
  cases h with
  | zero =>
    rw [hL.1.keyCnt]
    exact List.length_pos_of_ne_nil hne
  | succ h =>
    obtain ⟨ks, cs, fp', hn, hks, -⟩ := hL
    rw [hn.keyCnt]
    exact List.length_pos_of_ne_nil hks

/-- The iteration over a valid layer: forwards from the beginning through every key to the end,
and backwards from the last key through every key to the end. -/
theorem ValidLayer.iterates {root : ℕ} (hT : 2 ≤ cfg.T) (hL : ValidLayer cfg mem root its fp)
    (hnd : fp.Nodup) (hdepth : fp.card ≤ depth) :
    ∃ ps : List Position, ps.map (getKey mem) = its ∧
      (its.Pairwise fun a b => a.key.low < b.key.low) ∧ ps.Nodup ∧
      (∀ q, q ∈ ps ↔ q.1 ∈ fp ∧ q.2 < (mem.get q.1).keyCnt) ∧
      ps.IsChain (Neighbours mem depth) ∧
      (∃ first, ps.head? = some first ∧ begin mem depth root = .ok (State.at first) ∧
        ∀ fuel, its.length ≤ fuel →
          visits (State.succ mem depth) fuel (State.at first) = .ok (ps.map State.at)) ∧
      ∃ last, ps.getLast? = some last ∧
        ∀ fuel, its.length ≤ fuel →
          visits (State.pred mem depth) fuel (State.at last) = .ok (ps.reverse.map State.at) := by
  obtain ⟨h, hlayer⟩ := hL.layer
  have hcnt : 0 < (mem.get root).keyCnt := hlayer.keyCnt_pos hL.ne_nil
  have hlt : h < depth := hlayer.height_lt_card.trans_le hdepth
  obtain ⟨ps, hps⟩ := Placed.exists_of_layer hT hlayer hcnt hnd hlt
  obtain ⟨f, hf, hfirst⟩ := hps.first
  obtain ⟨l, hl, hlast⟩ := hps.last
  have hlen : ps.length = its.length := by rw [← hps.keys, List.length_map]
  have hordered : its.Pairwise fun a b => a.key.low < b.key.low := hL.strictlyOrdered
  have hnodup : ps.Nodup := by
    refine List.Nodup.of_map (getKey mem) ?_
    rw [hps.keys]
    exact hordered.imp fun hlow heq => hlow.ne (congrArg (·.key.low) heq)
  obtain ⟨fuel, hfuel⟩ : ∃ fuel, depth = fuel + h := ⟨depth - h, by omega⟩
  -- behind the last key and in front of the first one, the climb leaves the root
  have hsucc : (State.at l).succ mem depth = .ok State.end := by
    have hindex := hlast.index
    have hnot : ¬ (l.2 : ℤ) < ((mem.get l.1).keyCnt : ℤ) - 1 := by omega
    simp only [State.succ, State.at, getSuccGlobal, hlast.isLeaf, if_true, if_neg hnot, hfuel,
      hlast.climb]
    cases fuel <;> rfl
  have hpred : (State.at f).pred mem depth = .ok State.end := by
    have hnot : ¬ f.2 > 0 := by
      have := hfirst.index
      omega
    simp only [State.pred, State.at, getPredGlobal, hfirst.isLeaf, if_true, if_neg hnot, hfuel,
      hfirst.climb]
    cases fuel <;> rfl
  refine ⟨ps, hps.keys, hordered, hnodup, hps.mem_iff, hps.chain, ⟨f, hf, ?_, fun fuel hfuel => ?_⟩,
    ⟨l, hl, fun fuel hfuel => ?_⟩⟩
  · rw [begin, hfirst.leftMostFrom _ hlt]
    simp only [bind, Except.bind, pure, Except.pure, State.at, hfirst.index]
  · refine visits_eq (hps.chain.imp fun _ _ hab => hab.1) (fun q hq => ?_) (hlen.trans_le hfuel) hf
    obtain rfl : l = q := by simpa [hl] using hq
    exact hsucc
  · refine visits_eq (List.isChain_reverse.mpr (hps.chain.imp fun _ _ hab => hab.2))
      (fun q hq => ?_) (by rw [List.length_reverse]; exact hlen.trans_le hfuel)
      (by rw [List.head?_reverse, hl])
    obtain rfl : f = q := by simpa [hf] using hq
    exact hpred

/-- A node with two leaves. -/
theorem ValidLayer.iterates_threeNodes :
    ∃ ps : List Position, ps.map (getKey threeNodes.mempool) =
        [keyOf 1 2 none, keyOf 5 6 none, keyOf 9 9 (some 3)] ∧
      begin threeNodes.mempool 3 0 = .ok (State.at (1, 0)) ∧
      visits (State.succ threeNodes.mempool 3) 3 (State.at (1, 0)) = .ok (ps.map State.at) := by
  obtain ⟨ps, hkeys, -, -, -, -, ⟨first, -, hbegin, hvisits⟩, -⟩ :=
    validLayer_threeNodes.iterates (by decide) (by decide)
      (show Multiset.card {0, 1, 2} ≤ 3 by decide)
  have hfirst : begin threeNodes.mempool 3 0 = .ok (State.at (1, 0)) := by decide
  rw [hfirst] at hbegin
  have heq : State.at (1, 0) = State.at first := Except.ok.inj hbegin
  refine ⟨ps, hkeys, hfirst, ?_⟩
  rw [heq]
  exact hvisits 3 (by decide)

end Pcv

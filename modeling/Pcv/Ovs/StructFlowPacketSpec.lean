import Pcv.Ovs.StructFlow
import Mathlib.Data.List.Nodup
import Mathlib.Data.Fintype.EquivFin

/-!
# The order of the packet fields

Three arrays of one length describe the segments of a packet: how a segment is printed, what
it is called, and where it lies in the flow.  `sort_flow_packet_spec_fields` brings the
requested fields to the front of all three.

An index vector is derived from the names and applied to one array after the other.  It
has to be one permutation for all three, in the right direction: the entry at `i` is the
old place of the field that goes to `i`.
-/

namespace Pcv

namespace StructFlow

/-- `struct_flow_packet_formaters`, `struct_flow_packet_names` and `struct_flow_packet_spec`. -/
structure PacketSpec (F : Type) (n : ℕ) where
  formaters : Vector F n
  names : Vector String n
  spec : Vector InPacketPosition n

variable {F : Type} {n : ℕ}

/-- `index_of`; the name has to be in the array. -/
def indexOf (arr : Vector String n) (elm : String) : Option ℕ :=
  if elm ∈ arr.toList then some (arr.toList.idxOf elm) else none

/-- `apply_permutation`; every entry of `perm` has to be an index of the array. -/
def applyPermutation {α : Type} (arr : Vector α n) (perm : Vector ℕ n) : Option (Vector α n) :=
  if h : ∀ i : Fin n, perm[i] < n then some (Vector.ofFn fun i => arr.get ⟨perm[i], h i⟩)
  else none

/-- The loop that appends the names that were not requested. -/
def addMissing (names : List String) : List String → List String
  | [] => names
  | n :: rest => addMissing (if n ∈ names then names else names ++ [n]) rest

/-- The loop that writes the entries of `perm` from `i0` on. -/
def fillPerm (packetNames : Vector String n) : List String → ℕ → Vector ℕ n → Option (Vector ℕ n)
  | [], _, perm => some perm
  | name :: names, i0, perm => do
      let i1 ← indexOf packetNames name
      if h : i0 < n then fillPerm packetNames names (i0 + 1) (perm.set i0 i1 h) else none

/-- `sort_flow_packet_spec_fields`. -/
def sortFlowPacketSpecFields (names : List String) (s : PacketSpec F n) :
    Option (PacketSpec F n) := do
  let names := addMissing names s.names.toList
  let perm ← fillPerm s.names names 0 (Vector.replicate n 0)
  let formaters ← applyPermutation s.formaters perm
  let packetNames ← applyPermutation s.names perm
  let spec ← applyPermutation s.spec perm
  return ⟨formaters, packetNames, spec⟩

/-- The fields that `classifier_init` requests. -/
def classifierInitNames : List String :=
  ["nw_src-2", "nw_src-0", "nw_dst-2", "nw_dst-0", "tp_src", "tp_dst", "nw_proto"]

/-- The call in `classifier_init`. -/
def classifierInit (s : PacketSpec F n) : Option (PacketSpec F n) :=
  sortFlowPacketSpecFields classifierInitNames s

/-! ## One permutation for the three arrays -/

/-- All three arrays with the field from `σ i` at `i`. -/
def PacketSpec.permute (s : PacketSpec F n) (σ : Fin n → Fin n) : PacketSpec F n where
  formaters := Vector.ofFn fun i => s.formaters[σ i]
  names := Vector.ofFn fun i => s.names[σ i]
  spec := Vector.ofFn fun i => s.spec[σ i]

theorem PacketSpec.permute_id (s : PacketSpec F n) : s.permute id = s := by
  unfold PacketSpec.permute
  simp only [id, Fin.getElem_fin, Vector.ofFn_getElem]

/-- The order of the fields: the requested ones, then the others as they were. -/
def requestedFirst (names packetNames : List String) : List String :=
  names ++ packetNames.filter fun n => n ∉ names

theorem addMissing_eq {packetNames : List String} (h : packetNames.Nodup) (names : List String) :
    addMissing names packetNames = requestedFirst names packetNames := by
  unfold requestedFirst
  induction packetNames generalizing names with
  | nil => simp [addMissing]
  | cons n rest ih =>
    obtain ⟨hn, hrest⟩ := List.nodup_cons.mp h
    rw [addMissing, ih hrest]
    by_cases hmem : n ∈ names
    · simp [hmem]
    · have hfilter : (rest.filter fun m => m ∉ names ++ [n]) = rest.filter fun m => m ∉ names := by
        refine List.filter_congr fun m hm => ?_
        have hne : m ≠ n := fun heq => hn (heq ▸ hm)
        simp [hne]
      rw [if_neg hmem, hfilter, List.filter_cons_of_pos (by simpa using hmem), List.append_assoc,
        List.singleton_append]

variable {names packetNames : List String}

theorem requestedFirst_perm (hnames : names.Nodup) (hpacket : packetNames.Nodup)
    (hknown : ∀ name ∈ names, name ∈ packetNames) :
    (requestedFirst names packetNames).Perm packetNames := by
  have hnodup : (requestedFirst names packetNames).Nodup := by
    refine List.Nodup.append hnames (hpacket.filter _) fun name hname hother => ?_
    simp [hname] at hother
  refine (List.perm_ext_iff_of_nodup hnodup hpacket).mpr fun name => ?_
  by_cases hname : name ∈ names
  · simp [requestedFirst, hname, hknown name hname]
  · simp [requestedFirst, hname]

theorem requestedFirst_self (names packetNames : List String) :
    requestedFirst names (requestedFirst names packetNames) =
      requestedFirst names packetNames := by
  have hnone : (names.filter fun n => n ∉ names) = [] := by simp
  unfold requestedFirst
  rw [List.filter_append, hnone, List.nil_append, List.filter_filter]
  simp

/-- The entries of `perm` are the old places of the names. -/
theorem fillPerm_spec (arr : Vector String n) (hknown : ∀ name ∈ names, name ∈ arr.toList) (i0 : ℕ)
    (hlen : i0 + names.length ≤ n) (perm : Vector ℕ n) :
    ∃ perm', fillPerm arr names i0 perm = some perm' ∧ (∀ j, j < i0 → perm'[j]? = perm[j]?) ∧
      ∀ k name, names[k]? = some name → perm'[i0 + k]? = some (arr.toList.idxOf name) := by
  induction names generalizing i0 perm with
  | nil => exact ⟨perm, rfl, fun _ _ => rfl, fun k name h => by simp at h⟩
  | cons name names ih =>
    have hi0 : i0 < n := by
      rw [List.length_cons] at hlen
      omega
    obtain ⟨perm', heq, hbefore, hwritten⟩ := ih (fun m hm => hknown m (List.mem_cons_of_mem _ hm))
      (i0 + 1) (by rw [List.length_cons] at hlen; omega) (perm.set i0 (arr.toList.idxOf name) hi0)
    refine ⟨perm', ?_, fun j hj => ?_, fun k m hk => ?_⟩
    · rw [fillPerm, indexOf, if_pos (hknown name List.mem_cons_self)]
      simpa [hi0] using heq
    · rw [hbefore j (by omega), Vector.getElem?_set_ne _ (by omega)]
    · cases k with
      | zero =>
        obtain rfl : name = m := by simpa using hk
        rw [Nat.add_zero, hbefore i0 (Nat.lt_succ_self i0)]
        simp [hi0]
      | succ k =>
        rw [List.getElem?_cons_succ] at hk
        rw [← hwritten k m hk, Nat.add_assoc, Nat.add_comm 1 k]

theorem applyPermutation_eq {α : Type} (arr : Vector α n) {perm : Vector ℕ n} {σ : Fin n → Fin n}
    (h : ∀ i : Fin n, perm[i] = (σ i).val) :
    applyPermutation arr perm = some (Vector.ofFn fun i => arr[σ i]) := by
  have hlt : ∀ i : Fin n, perm[i] < n := fun i => by rw [h i]; exact (σ i).isLt
  rw [applyPermutation, dif_pos hlt]
  congr 2
  funext i
  simp [Vector.get, h i]

/-- The index vector is a permutation, and the three arrays are permuted by it. -/
theorem exists_permute {s : PacketSpec F n} (hpacket : s.names.toList.Nodup)
    (hnames : names.Nodup) (hknown : ∀ name ∈ names, name ∈ s.names.toList) :
    ∃ σ : Equiv.Perm (Fin n), sortFlowPacketSpecFields names s = some (s.permute σ) ∧
      (s.permute σ).names.toList = requestedFirst names s.names.toList := by
  have hperm := requestedFirst_perm hnames hpacket hknown
  set order := requestedFirst names s.names.toList with horder
  have hlen : order.length = n := by simpa using hperm.length_eq
  have hmem : ∀ i : Fin order.length, order.get i ∈ s.names.toList :=
    fun i => hperm.mem_iff.mp (List.get_mem order i)
  obtain ⟨perm, hfill, -, hwritten⟩ := fillPerm_spec s.names
    (fun name hname => hperm.mem_iff.mp hname) 0 (by omega) (Vector.replicate n 0)
  have hidx : ∀ i : Fin order.length, s.names.toList.idxOf (order.get i) < n := by
    intro i
    simpa using List.idxOf_lt_length_of_mem (hmem i)
  let σ : Fin n → Fin n := fun i => ⟨_, hidx (i.cast hlen.symm)⟩
  have hσ : ∀ i : Fin n, perm[i] = (σ i).val := by
    intro i
    have := hwritten i.val (order.get (i.cast hlen.symm)) (by simp)
    simpa [σ] using this
  have hname : ∀ i : Fin n, s.names[σ i] = order.get (i.cast hlen.symm) := by
    intro i
    rw [Fin.getElem_fin, ← Vector.getElem_toList]
    exact List.getElem_idxOf (List.idxOf_lt_length_of_mem (hmem (i.cast hlen.symm)))
  have hinjective : Function.Injective σ := by
    intro i j hij
    have heq : order.get (i.cast hlen.symm) = order.get (j.cast hlen.symm) := by
      rw [← hname, ← hname, hij]
    simpa using List.nodup_iff_injective_get.mp (hperm.nodup_iff.mpr hpacket) heq
  refine ⟨Equiv.ofBijective σ (Finite.injective_iff_bijective.mp hinjective), ?_, ?_⟩
  · simp only [sortFlowPacketSpecFields, addMissing_eq hpacket, ← horder, hfill, Option.bind_eq_bind,
      Option.bind_some, applyPermutation_eq _ hσ]
    rfl
  · refine List.ext_getElem (by simp [hlen]) fun i hi hi' => ?_
    have := hname ⟨i, by omega⟩
    simpa [PacketSpec.permute] using this

/-- The fields are permuted as they are requested, each with its name, its place in the packet
and its printer, and another call with the same request changes nothing. -/
theorem sortFlowPacketSpecFields_spec {s : PacketSpec F n} (hpacket : s.names.toList.Nodup)
    (hnames : names.Nodup) (hknown : ∀ name ∈ names, name ∈ s.names.toList) :
    ∃ σ : Equiv.Perm (Fin n), sortFlowPacketSpecFields names s = some (s.permute σ) ∧
      (s.permute σ).names.toList = names ++ s.names.toList.filter (fun n => n ∉ names) ∧
      (∀ i j : Fin n, (s.permute σ).names[i] = s.names[j] →
        (s.permute σ).formaters[i] = s.formaters[j] ∧ (s.permute σ).spec[i] = s.spec[j]) ∧
      sortFlowPacketSpecFields names (s.permute σ) = some (s.permute σ) := by
  obtain ⟨σ, heq, horder⟩ := exists_permute hpacket hnames hknown
  have hperm := requestedFirst_perm hnames hpacket hknown
  have hinjective : ∀ {t : PacketSpec F n}, t.names.toList.Nodup → ∀ i j : Fin n,
      t.names[i] = t.names[j] → i = j := by
    intro t ht i j hij
    simp only [Fin.getElem_fin] at hij
    exact Fin.ext (ht.getElem_inj_iff.mp hij)
  have hpacket' : (s.permute σ).names.toList.Nodup := by
    rw [horder]
    exact hperm.nodup_iff.mpr hpacket
  refine ⟨σ, heq, horder, fun i j hij => ?_, ?_⟩
  · have hname : (s.permute σ).names[i] = s.names[σ i] := by simp [PacketSpec.permute]
    obtain rfl := hinjective hpacket _ _ (hname.symm.trans hij)
    simp [PacketSpec.permute]
  · obtain ⟨τ, heq', horder'⟩ := exists_permute hpacket' hnames fun name hname => by
      rw [horder]
      exact hperm.mem_iff.mpr (hknown name hname)
    -- the names are in the requested order already, so they stay where they are
    have hsame : ((s.permute σ).permute τ).names = (s.permute σ).names := by
      rw [← Vector.toList_inj, horder', horder, requestedFirst_self]
    have hτ : (τ : Fin n → Fin n) = id := by
      funext i
      refine hinjective hpacket' _ _ ?_
      have hname : ((s.permute σ).permute τ).names[i] = (s.permute σ).names[τ i] := by
        simp only [PacketSpec.permute, Fin.getElem_fin, Vector.getElem_ofFn]
      rw [← hname, hsame, id]
    rw [heq', hτ, PacketSpec.permute_id]

/-- The request of `classifier_init` in a description of nine fields. -/
theorem sortFlowPacketSpecFields_spec_init :
    let s : PacketSpec ℕ 9 :=
      { formaters := Vector.ofFn fun i => i.val
        names := #v["nw_ttl", "nw_proto", "nw_src-0", "nw_src-2", "nw_dst-0", "nw_dst-2", "tp_src",
          "tp_dst", "ct_tp_src"]
        spec := Vector.ofFn fun i => ⟨2 * i, 2, true⟩ }
    ∃ σ : Equiv.Perm (Fin 9), classifierInit s = some (s.permute σ) ∧
      (s.permute σ).names.toList = ["nw_src-2", "nw_src-0", "nw_dst-2", "nw_dst-0", "tp_src",
        "tp_dst", "nw_proto", "nw_ttl", "ct_tp_src"] ∧
      classifierInit (s.permute σ) = some (s.permute σ) := by
  intro s
  have hnodup : classifierInitNames.Nodup := by decide
  obtain ⟨σ, heq, horder, -, hagain⟩ := sortFlowPacketSpecFields_spec (s := s) (by decide) hnodup
    (by decide)
  exact ⟨σ, heq, by rw [horder]; decide, hagain⟩

end StructFlow

end Pcv

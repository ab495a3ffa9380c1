import Pcv.RuleParser.ClassBench
import Pcv.Library.Words
import Mathlib.Tactic.IntervalCases

/-!
# What a ClassBench line is read as

The reader checks nothing but the first character.  It stays inside the vectors and the array of
octets if the line has the shape of a rule and the prefix lengths are at most 32; then the address
ranges are in order, whatever the octets are.  The ports are taken as they stand.
-/

namespace Pcv

open Text

/-! ## Address ranges -/

/-- The addresses that share the first `prefixLen` bits with the given one. -/
def cidr (address prefixLen : ℕ) : Range1d :=
  let block := 2 ^ (32 - prefixLen)
  ⟨address / block * block, address / block * block + (block - 1)⟩

/-- The address with the given octets. -/
def addressOf (o0 o1 o2 o3 : ℕ) : ℕ := o0 * 256 ^ 3 + o1 * 256 ^ 2 + o2 * 256 + o3

section Address

variable {o0 o1 o2 o3 p : ℕ}

theorem joinOctets_eq (o0 o1 o2 o3 : ℕ) :
    joinOctets [o0, o1, o2, o3] = addressOf o0 o1 o2 o3 % 2 ^ 32 := by
  simp only [joinOctets, List.foldl_cons, List.foldl_nil, Nat.shiftLeft_eq, addressOf]
  omega

/-- The octet in which the prefix ends is cut, unless the prefix ends between two octets. -/
theorem setPartial_low {a k : ℕ} (ha : a < 4) (hk : k < 8) {ptrange : List ℕ}
    (hlt : ∀ o ∈ ptrange, o < 2 ^ 32) :
    setPartial a k (fun o => o &&& bitNot 32 (1 <<< k - 1)) ptrange =
      .ok (ptrange.modify (3 - a) fun o => 2 ^ k * (o / 2 ^ k)) := by
  rw [setPartial]
  split
  · have hmask : bitNot 32 (1 <<< k - 1) = 2 ^ 32 - 2 ^ k := by
      have := Nat.two_pow_pos k
      rw [bitNot, Nat.one_shiftLeft]
      omega
    have hindex : (3 - a : ℤ).toNat = 3 - a := by omega
    rw [setOctet, if_pos ⟨by omega, by omega⟩, hindex, hmask]
    refine congrArg Except.ok (List.ext_getElem? fun j => ?_)
    rw [List.getElem?_modify, List.getElem?_modify]
    cases ho : ptrange[j]? with
    | none => rfl
    | some o =>
        have hcut := and_prefixMask (hlt o (List.mem_of_getElem? ho)) (show k ≤ 32 by omega)
        simp only [Option.map_eq_map, Option.map_some, hcut]
  · next h0 =>
      obtain rfl : k = 0 := by omega
      simp only [pow_zero, Nat.div_one, Nat.one_mul]
      exact congrArg Except.ok (List.modify_id (3 - a) ptrange).symm

/-- Behind the prefix the bits of this octet are set. -/
theorem setPartial_high {a k q : ℕ} (ha : a < 4) {ptrange : List ℕ}
    (hq : ptrange[3 - a]? = some (2 ^ k * q)) :
    setPartial a k (fun o => o ||| (1 <<< k - 1)) ptrange =
      .ok (ptrange.set (3 - a) (2 ^ k * q + (2 ^ k - 1))) := by
  have hset : ∀ f : ℕ → ℕ, ptrange.modify (3 - a) f = ptrange.set (3 - a) (f (2 ^ k * q)) := by
    intro f
    refine List.ext_getElem? fun j => ?_
    rw [List.getElem?_modify, List.getElem?_set]
    split
    · next h =>
        subst h
        rw [hq]
        simp [(List.getElem?_eq_some_iff.mp hq).1]
    · simp
  rw [setPartial]
  split
  · have hindex : (3 - a : ℤ).toNat = 3 - a := by omega
    rw [setOctet, if_pos ⟨by omega, by omega⟩, hindex, hset, Nat.one_shiftLeft,
      Nat.two_pow_add_eq_or_of_lt (Nat.sub_lt (Nat.two_pow_pos k) Nat.one_pos)]
  · next h0 =>
      obtain rfl : k = 0 := by omega
      have := hset id
      rw [List.modify_id] at this
      exact congrArg Except.ok (by simpa using this)

/-- An address that is cut within the octet `o`; `H` are the octets in front of it, and `L` the `a`
octets behind it. -/
theorem cut_octet {a k z H o L S lowS highS : ℕ} (hz : z = 8 * a + k) (hk : k < 8)
    (hS : S = (H * 256 + o) * 256 ^ a + L)
    (hlow : lowS = (H * 256 + 2 ^ k * (o / 2 ^ k)) * 256 ^ a)
    (hhigh : highS = (H * 256 + (2 ^ k * (o / 2 ^ k) + (2 ^ k - 1))) * 256 ^ a + (256 ^ a - 1)) :
    lowS = 2 ^ z * (H * 2 ^ (8 - k) + o / 2 ^ k) ∧
      highS = 2 ^ z * (H * 2 ^ (8 - k) + o / 2 ^ k) + (2 ^ z - 1) ∧
      (L < 256 ^ a → H * 2 ^ (8 - k) + o / 2 ^ k = S / 2 ^ z) := by
  have hz : 2 ^ z = 256 ^ a * 2 ^ k := by
    rw [hz, pow_add, pow_mul]
    rfl
  have h256 : 256 = 2 ^ k * 2 ^ (8 - k) := by
    rw [← pow_add, Nat.add_sub_cancel' hk.le]
    rfl
  have hP := Nat.two_pow_pos k
  have hB : 0 < 256 ^ a := Nat.pow_pos (by decide)
  have hlow' : lowS = 2 ^ z * (H * 2 ^ (8 - k) + o / 2 ^ k) := by
    calc lowS = (H * (2 ^ k * 2 ^ (8 - k)) + 2 ^ k * (o / 2 ^ k)) * 256 ^ a := by rw [hlow, ← h256]
      _ = 256 ^ a * 2 ^ k * (H * 2 ^ (8 - k) + o / 2 ^ k) := by ring
      _ = 2 ^ z * (H * 2 ^ (8 - k) + o / 2 ^ k) := by rw [hz]
  refine ⟨hlow', ?_, fun hL => ?_⟩
  · have hfull : (2 ^ k - 1) * 256 ^ a + (256 ^ a - 1) = 2 ^ z - 1 := by
      rw [hz, Nat.sub_mul, Nat.one_mul, Nat.mul_comm (256 ^ a)]
      have := Nat.le_mul_of_pos_left (256 ^ a) hP
      omega
    calc highS = lowS + ((2 ^ k - 1) * 256 ^ a + (256 ^ a - 1)) := by rw [hhigh, hlow]; ring
      _ = _ := by rw [hlow', hfull]
  · have hrest : o % 2 ^ k * 256 ^ a + L < 2 ^ z := by
      have := Nat.mul_le_mul_right (256 ^ a) (Nat.succ_le_of_lt (Nat.mod_lt o hP))
      rw [Nat.succ_mul] at this
      rw [hz, Nat.mul_comm (256 ^ a)]
      omega
    have hsum : S = 2 ^ z * (H * 2 ^ (8 - k) + o / 2 ^ k) + (o % 2 ^ k * 256 ^ a + L) := by
      rw [← hlow', hlow, hS]
      conv_lhs => rw [← Nat.div_add_mod o (2 ^ k)]
      ring
    rw [hsum, Nat.mul_add_div (Nat.two_pow_pos z), Nat.div_eq_of_lt hrest, Nat.add_zero]

/-- The steps of `parse_IPRange`, for a prefix that ends in the octet `3 - a`. -/
theorem addressRange_eq {a k q : ℕ} {low filled : List ℕ} (hz : 32 - p = 8 * a + k) (ha : a < 4)
    (hk : k < 8) {ptrange cleared : List ℕ} (hp : p ≤ 32)
    (hclear : fillOctets 0 a 3 ptrange = .ok cleared) (hlt : ∀ o ∈ cleared, o < 2 ^ 32)
    (hlow : cleared.modify (3 - a) (fun o => 2 ^ k * (o / 2 ^ k)) = low)
    (hfill : fillOctets 255 a 3 low = .ok filled) (hq : filled[3 - a]? = some (2 ^ k * q)) :
    addressRange ptrange p = .ok ⟨joinOctets low,
      joinOctets (filled.set (3 - a) (2 ^ k * q + (2 ^ k - 1)))⟩ := by
  have hmask : (2 ^ 32 + 32 - p) % 2 ^ 32 = 8 * a + k := by omega
  have hdiv : (8 * a + k) / 8 = a := by omega
  have hmod : (8 * a + k) % 8 = k := by omega
  simp only [addressRange, hmask, hdiv, hmod, hclear, bind, Except.bind, setPartial_low ha hk hlt,
    hlow, hfill, setPartial_high ha hq]
  rfl

theorem fillOctets_four (val x0 x1 x2 x3 : ℕ) :
    fillOctets val 4 3 [x0, x1, x2, x3] = .ok [val, val, val, val] := rfl

theorem setPartial_four_zero (f : ℕ → ℕ) (ptrange : List ℕ) :
    setPartial 4 0 f ptrange = .ok ptrange := rfl

theorem forall_mem_four {x0 x1 x2 x3 n : ℕ} (h0 : x0 < n) (h1 : x1 < n) (h2 : x2 < n)
    (h3 : x3 < n) : ∀ o ∈ [x0, x1, x2, x3], o < n := by
  simp only [List.forall_mem_cons, List.not_mem_nil, false_imp_iff, implies_true, and_true]
  exact ⟨h0, h1, h2, h3⟩

/-- A prefix length up to 32 gives an aligned range, which for octets of 8 bits is the block of the
address. -/
theorem addressRange_of_le (ho : ∀ o ∈ [o0, o1, o2, o3], o < 2 ^ 32) (hp : p ≤ 32) :
    ∃ m, addressRange [o0, o1, o2, o3] p = .ok ⟨2 ^ (32 - p) * m % 2 ^ 32,
        (2 ^ (32 - p) * m + (2 ^ (32 - p) - 1)) % 2 ^ 32⟩ ∧
      ((∀ o ∈ [o0, o1, o2, o3], o < 256) → m = addressOf o0 o1 o2 o3 / 2 ^ (32 - p)) := by
  simp only [List.forall_mem_cons, List.not_mem_nil, false_imp_iff, implies_true, and_true] at ho ⊢
  obtain ⟨h0, h1, h2, h3⟩ := ho
  rcases Nat.eq_zero_or_pos p with rfl | hpos
  · have hsteps : addressRange [o0, o1, o2, o3] 0 =
        .ok ⟨joinOctets [0, 0, 0, 0], joinOctets [255, 255, 255, 255]⟩ := by
      simp only [addressRange, show (2 ^ 32 + 32 - 0) % 2 ^ 32 = 32 by norm_num,
        show 32 / 8 = 4 by norm_num, show 32 % 8 = 0 by norm_num, bind, Except.bind,
        fillOctets_four, setPartial_four_zero]
      rfl
    refine ⟨0, hsteps.trans (by decide), fun ⟨h0, h1, h2, h3⟩ => ?_⟩
    rw [Nat.div_eq_of_lt]
    simp only [addressOf]
    omega
  obtain ⟨a, k, ha, hk, hz⟩ : ∃ a k, a < 4 ∧ k < 8 ∧ 32 - p = 8 * a + k :=
    ⟨(32 - p) / 8, (32 - p) % 8, by omega, by omega, by omega⟩
  have hzero : 0 < 2 ^ 32 := by decide
  -- the octet in which the prefix ends, with those in front of it and behind it
  interval_cases a
  · have hcut := cut_octet (H := (o0 * 256 + o1) * 256 + o2) (o := o3) (L := 0)
      (S := addressOf o0 o1 o2 o3) hz hk
      (by simp only [addressOf]; ring)
      (show addressOf o0 o1 o2 (2 ^ k * (o3 / 2 ^ k)) = _ by simp only [addressOf]; ring)
      (show addressOf o0 o1 o2 (2 ^ k * (o3 / 2 ^ k) + (2 ^ k - 1)) = _ by
        simp only [addressOf]; ring_nf)
    obtain ⟨hlow, hhigh, hm⟩ := hcut
    have heq := addressRange_eq hz ha hk hp rfl (forall_mem_four h0 h1 h2 h3) rfl rfl rfl
    refine ⟨_, heq.trans ?_, fun ⟨h0, h1, h2, h3⟩ => hm (by omega)⟩
    rw [← hhigh, ← hlow, ← joinOctets_eq, ← joinOctets_eq]
    rfl
  · have hcut := cut_octet (H := o0 * 256 + o1) (o := o2) (L := o3)
      (S := addressOf o0 o1 o2 o3) hz hk
      (by simp only [addressOf]; ring)
      (show addressOf o0 o1 (2 ^ k * (o2 / 2 ^ k)) 0 = _ by simp only [addressOf]; ring)
      (show addressOf o0 o1 (2 ^ k * (o2 / 2 ^ k) + (2 ^ k - 1)) 255 = _ by
        simp only [addressOf]; ring_nf)
    obtain ⟨hlow, hhigh, hm⟩ := hcut
    have hfill : fillOctets 255 1 3 [o0, o1, 2 ^ k * (o2 / 2 ^ k), 0] = .ok [o0, o1, 2 ^ k * (o2 / 2 ^ k), 255] :=
      rfl
    have hclear : fillOctets 0 1 3 [o0, o1, o2, o3] = .ok [o0, o1, o2, 0] := rfl
    have heq := addressRange_eq hz ha hk hp hclear (forall_mem_four h0 h1 h2 hzero) rfl
      hfill rfl
    refine ⟨_, heq.trans ?_, fun ⟨h0, h1, h2, h3⟩ => hm (by omega)⟩
    rw [← hhigh, ← hlow, ← joinOctets_eq, ← joinOctets_eq]
    rfl
  · have hcut := cut_octet (H := o0) (o := o1) (L := o2 * 256 + o3)
      (S := addressOf o0 o1 o2 o3) hz hk
      (by simp only [addressOf]; ring)
      (show addressOf o0 (2 ^ k * (o1 / 2 ^ k)) 0 0 = _ by simp only [addressOf]; ring)
      (show addressOf o0 (2 ^ k * (o1 / 2 ^ k) + (2 ^ k - 1)) 255 255 = _ by
        simp only [addressOf]; ring_nf)
    obtain ⟨hlow, hhigh, hm⟩ := hcut
    have hfill : fillOctets 255 2 3 [o0, 2 ^ k * (o1 / 2 ^ k), 0, 0] = .ok [o0, 2 ^ k * (o1 / 2 ^ k), 255, 255] :=
      rfl
    have hclear : fillOctets 0 2 3 [o0, o1, o2, o3] = .ok [o0, o1, 0, 0] := rfl
    have heq := addressRange_eq hz ha hk hp hclear (forall_mem_four h0 h1 hzero hzero) rfl
      hfill rfl
    refine ⟨_, heq.trans ?_, fun ⟨h0, h1, h2, h3⟩ => hm (by omega)⟩
    rw [← hhigh, ← hlow, ← joinOctets_eq, ← joinOctets_eq]
    rfl
  · have hcut := cut_octet (H := 0) (o := o0) (L := (o1 * 256 + o2) * 256 + o3)
      (S := addressOf o0 o1 o2 o3) hz hk
      (by simp only [addressOf]; ring)
      (show addressOf (2 ^ k * (o0 / 2 ^ k)) 0 0 0 = _ by simp only [addressOf]; ring)
      (show addressOf (2 ^ k * (o0 / 2 ^ k) + (2 ^ k - 1)) 255 255 255 = _ by
        simp only [addressOf]; ring_nf)
    obtain ⟨hlow, hhigh, hm⟩ := hcut
    have hfill : fillOctets 255 3 3 [2 ^ k * (o0 / 2 ^ k), 0, 0, 0] = .ok [2 ^ k * (o0 / 2 ^ k), 255, 255, 255] :=
      rfl
    have hclear : fillOctets 0 3 3 [o0, o1, o2, o3] = .ok [o0, 0, 0, 0] := rfl
    have heq := addressRange_eq hz ha hk hp hclear (forall_mem_four h0 hzero hzero hzero) rfl
      hfill rfl
    refine ⟨_, heq.trans ?_, fun ⟨h0, h1, h2, h3⟩ => hm (by omega)⟩
    rw [← hhigh, ← hlow, ← joinOctets_eq, ← joinOctets_eq]
    rfl

theorem setPartial_four {k : ℕ} (hk : k ≠ 0) (f : ℕ → ℕ) (ptrange : List ℕ) :
    setPartial 4 k f ptrange = .error .undefined := by
  rw [setPartial, if_pos hk]
  rfl

/-- A longer prefix runs out of the array of octets. -/
theorem addressRange_of_gt (hp : 32 < p) (hlt : p < 2 ^ 32) :
    addressRange [o0, o1, o2, o3] p = .error .undefined := by
  set mask := (2 ^ 32 + 32 - p) % 2 ^ 32 with hmask
  have hgt : 32 < mask := by omega
  rcases Nat.eq_or_lt_of_le (show 4 ≤ mask / 8 by omega) with h4 | h4
  · simp only [addressRange, ← hmask, ← h4, fillOctets_four, bind, Except.bind,
      setPartial_four (show mask % 8 ≠ 0 by omega)]
  · obtain ⟨n, hn⟩ := Nat.exists_eq_add_of_lt h4
    simp only [addressRange, ← hmask, hn, bind, Except.bind]
    rw [show 4 + n + 1 = n + 5 by omega]
    rfl

end Address

/-! ## Addresses as texts -/

section Texts

variable {s token : List Char} {ptrange : List ℕ} {n p : ℕ}

theorem readUnsigned_lt (h : readUnsigned s = some n) : n < 2 ^ 32 := by
  have hmax : keyMax 4 = 2 ^ 32 - 1 := rfl
  simp only [readUnsigned] at h
  split at h
  · cases h
  · split at h
    · cases h
      omega
    · split at h
      · cases h
        omega
      · cases h
        omega

/-- A number is assigned for every text that is not blank. -/
theorem readUnsigned_eq_none (hs : ∀ c ∈ s, isSpace c = false) (h : readUnsigned s = none) :
    s = [] := by
  have hdrop : s.dropWhile isSpace = s := by
    cases s with
    | nil => rfl
    | cons c s => simp [hs c List.mem_cons_self]
  simp only [readUnsigned, hdrop] at h
  by_contra hne
  rw [if_neg hne] at h
  split at h
  · cases h
  · split at h
    · cases h
    · cases h

theorem exists_readUnsigned (hs : ∀ c ∈ s, isSpace c = false) (h : s ≠ []) :
    ∃ n, readUnsigned s = some n :=
  Option.ne_none_iff_exists'.mp fun hn => h (readUnsigned_eq_none hs hn)

theorem atoui_eq_ok : atoui s = .ok n ↔ readUnsigned s = some n := by
  rw [atoui]
  cases readUnsigned s <;> simp

theorem elementAt_eq_ok {α : Type*} {v : List α} {i : ℕ} {x : α} :
    elementAt v i = .ok x ↔ v[i]? = some x := by
  rw [elementAt]
  cases v[i]? <;> simp

/-- The token is read as the given octets and prefix length. -/
inductive AddressText : List Char → List ℕ → ℕ → Prop
  | mk {token address len t0 t1 t2 t3 : List Char} {lens octets : List (List Char)}
      {o0 o1 o2 o3 p : ℕ} (hslash : split token '/' = address :: len :: lens)
      (hdot : split address '.' = t0 :: t1 :: t2 :: t3 :: octets)
      (h0 : readUnsigned t0 = some o0) (h1 : readUnsigned t1 = some o1)
      (h2 : readUnsigned t2 = some o2) (h3 : readUnsigned t3 = some o3)
      (hp : readUnsigned len = some p) : AddressText token [o0, o1, o2, o3] p

theorem AddressText.readAddress (h : AddressText token ptrange p) :
    readAddress token = .ok (ptrange, p) := by
  obtain ⟨hslash, hdot, h0, h1, h2, h3, hp⟩ := h
  simp [Pcv.readAddress, elementAt, atoui, bind, Except.bind, hslash, hdot, h0, h1, h2, h3, hp]
  rfl

theorem AddressText.octets_lt (h : AddressText token ptrange p) : ∀ o ∈ ptrange, o < 2 ^ 32 := by
  obtain ⟨-, -, h0, h1, h2, h3, -⟩ := h
  exact forall_mem_four (readUnsigned_lt h0) (readUnsigned_lt h1) (readUnsigned_lt h2)
    (readUnsigned_lt h3)

theorem AddressText.len_lt (h : AddressText token ptrange p) : p < 2 ^ 32 := by
  obtain ⟨-, -, -, -, -, -, hp⟩ := h
  exact readUnsigned_lt hp

theorem bind_eq_ok {α β : Type} {x : Except ParseFault α} {f : α → Except ParseFault β} {b : β} :
    x >>= f = .ok b ↔ ∃ a, x = .ok a ∧ f a = .ok b := by
  cases x <;> simp [bind, Except.bind]

theorem eq_cons_of_getElem? {α : Type*} {v : List α} {x : α} (h : v[0]? = some x) :
    v = x :: v.tail := by
  cases v with
  | nil => cases h
  | cons y v =>
      cases h
      rfl

theorem addressText_of_readAddress (h : readAddress token = .ok (ptrange, p)) :
    AddressText token ptrange p := by
  simp only [readAddress, bind_eq_ok, elementAt_eq_ok, atoui_eq_ok] at h
  obtain ⟨address, haddress, t0, ht0, o0, h0, t1, ht1, o1, h1, t2, ht2, o2, h2, t3, ht3, o3, h3, len,
    hlen, q, hp, heq⟩ := h
  cases heq
  have hslash := eq_cons_of_getElem? haddress
  rw [hslash, List.getElem?_cons_succ] at hlen
  rw [eq_cons_of_getElem? hlen] at hslash
  have hdot := eq_cons_of_getElem? ht0
  rw [hdot, List.getElem?_cons_succ] at ht1 ht2 ht3
  have hdot1 := eq_cons_of_getElem? ht1
  rw [hdot1, List.getElem?_cons_succ] at ht2 ht3
  have hdot2 := eq_cons_of_getElem? ht2
  rw [hdot2, List.getElem?_cons_succ] at ht3
  rw [eq_cons_of_getElem? ht3] at hdot2
  rw [hdot2] at hdot1
  rw [hdot1] at hdot
  exact .mk hslash hdot h0 h1 h2 h3 hp

/-- A reader that throws nothing. -/
def NeverThrows {α : Type} (x : Except ParseFault α) : Prop := ∀ e, x = .error e → e = .undefined

theorem NeverThrows.bind {α β : Type} {x : Except ParseFault α} {f : α → Except ParseFault β}
    (hx : NeverThrows x) (hf : ∀ a, NeverThrows (f a)) : NeverThrows (x >>= f) := by
  intro e h
  cases x with
  | error e' =>
      cases h
      exact hx e rfl
  | ok a => exact hf a e h

/-- A defined outcome, taken apart behind a step that throws nothing. -/
theorem NeverThrows.of_bind {α β : Type} {x : Except ParseFault α} {f : α → Except ParseFault β}
    (hx : NeverThrows x) (h : x >>= f ≠ .error .undefined) :
    ∃ a, x = .ok a ∧ f a ≠ .error .undefined := by
  cases x with
  | error e =>
      obtain rfl := hx e rfl
      exact (h rfl).elim
  | ok a => exact ⟨a, rfl, h⟩

theorem neverThrows_pure {α : Type} (a : α) : NeverThrows (pure a) := fun _ h => by cases h

theorem neverThrows_elementAt {α : Type} (v : List α) (i : ℕ) : NeverThrows (elementAt v i) := by
  intro e h
  rw [elementAt] at h
  split at h <;> cases h
  rfl

theorem neverThrows_atoui (s : List Char) : NeverThrows (atoui s) := by
  intro e h
  rw [atoui] at h
  split at h <;> cases h
  rfl

theorem neverThrows_readAddress (token : List Char) : NeverThrows (readAddress token) :=
  have octet (v : List (List Char)) (i : ℕ) {β : Type} {f : ℕ → Except ParseFault β}
      (hf : ∀ o, NeverThrows (f o)) : NeverThrows (elementAt v i >>= fun t => atoui t >>= f) :=
    (neverThrows_elementAt v i).bind fun t => (neverThrows_atoui t).bind hf
  (neverThrows_elementAt _ 0).bind fun address =>
    octet (split address '.') 0 fun _ => octet _ 1 fun _ => octet _ 2 fun _ => octet _ 3 fun _ =>
      octet _ 1 fun _ => neverThrows_pure _

theorem parseIPRange_of_text (h : AddressText token ptrange p) :
    parseIPRange token = addressRange ptrange p := by
  rw [parseIPRange, h.readAddress]
  rfl

theorem neverThrows_parsePort (first last : List Char) : NeverThrows (parsePort first last) :=
  (neverThrows_atoui first).bind fun _ => (neverThrows_atoui last).bind fun _ => neverThrows_pure _

/-- A prefix length up to 32 gives a range in order. -/
theorem parseIPRange_of_le (h : AddressText token ptrange p) (hp : p ≤ 32) :
    ∃ range, parseIPRange token = .ok range ∧ range.low ≤ range.high := by
  have hrange := parseIPRange_of_text h
  have hlt := h.octets_lt
  cases h
  obtain ⟨m, hm, -⟩ := addressRange_of_le hlt hp
  exact ⟨_, hrange.trans hm, (isAligned_mod (Nat.sub_le 32 p) m).le⟩

/-- Without octets and a prefix length up to 32 the reader leaves a vector or the array of octets,
or uses a number that was not assigned. -/
theorem parseIPRange_undefined (h : ¬∃ ptrange p, AddressText token ptrange p ∧ p ≤ 32) :
    parseIPRange token = .error .undefined := by
  cases hread : readAddress token with
  | error e =>
      obtain rfl := neverThrows_readAddress token e hread
      rw [parseIPRange, hread]
      rfl
  | ok address =>
      obtain ⟨ptrange, p⟩ := address
      have htext := addressText_of_readAddress hread
      have hp : 32 < p := by
        by_contra hp
        exact h ⟨ptrange, p, htext, Nat.le_of_not_gt hp⟩
      rw [parseIPRange_of_text htext]
      have hlt := htext.len_lt
      cases htext
      exact addressRange_of_gt hp hlt

theorem neverThrows_parseIPRange (token : List Char) : NeverThrows (parseIPRange token) := by
  by_cases h : ∃ ptrange p, AddressText token ptrange p ∧ p ≤ 32
  · obtain ⟨ptrange, p, htext, hp⟩ := h
    obtain ⟨range, hrange, -⟩ := parseIPRange_of_le htext hp
    rw [hrange]
    exact neverThrows_pure range
  · rw [parseIPRange_undefined h]
    exact fun e he => (Except.error.inj he).symm

end Texts

end Pcv

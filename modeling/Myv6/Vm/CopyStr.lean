import Myv6.Vm.Copy

/-!
# Vm/CopyStr — copying a string in

    uva    c₀ c₁ … c_j = 0 │ …          kva    c₀ c₁ … c_j │ as it was
           every page passes the test                size ──▸│ never written

`copy_in_str` is the byte loop of `copy_in`, stopped behind the first NUL.
-/

namespace Vm

open Bytes Hoare

variable {m m' m₀ m₁ : Mem} {l₀ : List Word} {r uva kva size a memStart : Word} {c : ℕ → Byte}
  {k j n : ℕ} {meetEnd : Bool} {E : Panic → Prop}

/-! ## The reference -/

/-- The character at `uva + k`, if its page passes the test. -/
def userChar (m : Mem) (r uva : Word) (k : ℕ) : Option Byte :=
  (translate m r (uva + BitVec.ofNat 64 k)).map m.byte

/-- **A string of length `j`** at a user address. -/
structure StringAt (m : Mem) (r uva : Word) (j : ℕ) : Prop where
  readable : Reaches m r uva (j + 1)
  nul : userChar m r uva j = some 0
  before : ∀ k < j, userChar m r uva k ≠ some 0

theorem userChar_eq (h : translate m r (uva + BitVec.ofNat 64 k) = some a) :
    userChar m r uva k = some (m.byte a) := by
  rw [userChar, h]
  rfl

/-- A user address has one string. -/
theorem StringAt.unique (h : StringAt m r uva j) (h' : StringAt m r uva k) : j = k := by
  rcases Nat.lt_trichotomy j k with hlt | heq | hgt
  · exact absurd h.nul (h'.before j hlt)
  · exact heq
  · exact absurd h'.nul (h.before k hgt)

/-! ## The code -/

/-- **The loop of `copy_str_in_page`** stops behind the first NUL, or at the end of the part. -/
theorem copyStrInPage_spec : ∀ (n : ℕ) {f : ℕ → Mem} {c : ℕ → Byte} {memStart kva : Word},
    (∀ i < n, InRam (memStart + BitVec.ofNat 64 i) ∧ (f i).image.InData (kva + BitVec.ofNat 64 i) ∧
      (f i).byte (memStart + BitVec.ofNat 64 i) = c i ∧
      f (i + 1) = (f i).setByte (kva + BitVec.ofNat 64 i) (c i)) →
    wp (copyStrInPage meetEnd .copyInStr n memStart kva) (fun res m' =>
      (res = .finish ∧ ∃ i < n, m' = f (i + 1) ∧ c i = 0 ∧ ∀ k < i, c k ≠ 0) ∨
      (res = (if meetEnd then .fail else .success) ∧ m' = f n ∧ ∀ k < n, c k ≠ 0)) E (f 0)
  | 0, _, _, _, _, _ => .inr ⟨rfl, rfl, fun _ hk => absurd hk (Nat.not_lt_zero _)⟩
  | n + 1, f, c, memStart, kva, h => by
    obtain ⟨hmem, hkva, hchar, hnext⟩ := h 0 (Nat.succ_pos n)
    rw [BitVec.add_zero] at hmem hkva hchar hnext
    rw [copyStrInPage, wp_bind, if_pos rfl, load, if_pos hmem, wp_inspect, wp_bind, if_pos rfl,
      wp_store hkva, hchar, ← hnext]
    have hshift : ∀ (x : Word) (i : ℕ), x + 1 + BitVec.ofNat 64 i = x + BitVec.ofNat 64 (i + 1) := by
      intro x i
      rw [Nat.add_comm i, BitVec.ofNat_add, ← BitVec.add_assoc]
      rfl
    split
    · next hzero =>
      exact .inl ⟨rfl, 0, Nat.succ_pos n, rfl, hzero, fun _ hk => absurd hk (Nat.not_lt_zero _)⟩
    next hne =>
    have hrest : ∀ i < n, InRam (memStart + 1 + BitVec.ofNat 64 i) ∧
        (f (i + 1)).image.InData (kva + 1 + BitVec.ofNat 64 i) ∧
        (f (i + 1)).byte (memStart + 1 + BitVec.ofNat 64 i) = c (i + 1) ∧
        f (i + 1 + 1) = (f (i + 1)).setByte (kva + 1 + BitVec.ofNat 64 i) (c (i + 1)) := by
      intro i hi
      rw [hshift, hshift]
      exact h (i + 1) (Nat.succ_lt_succ hi)
    have hbefore : ∀ i, (∀ k < i, c (k + 1) ≠ 0) → ∀ k < i + 1, c k ≠ 0 := by
      rintro i hi (_ | k) hk
      · exact hne
      · exact hi k (Nat.lt_of_succ_lt_succ hk)
    refine wp_post (copyStrInPage_spec n (f := fun i => f (i + 1)) (c := fun i => c (i + 1)) hrest) ?_
    rintro res m' (⟨rfl, i, hi, rfl, hzero, hall⟩ | ⟨rfl, rfl, hall⟩)
    · exact .inl ⟨rfl, i + 1, Nat.succ_lt_succ hi, rfl, hzero, hbefore i hall⟩
    · exact .inr ⟨rfl, rfl, hbefore n hall⟩

/-- The bytes go where `copy_in` puts them. -/
theorem sent_copyInStr (n : ℕ) : sent .copyInStr m r uva kva n = sent .copyIn m r uva kva n := by
  induction n with
  | zero => rfl
  | succ n ih =>
    rw [sent, sent, ih]
    rfl

/-- The bytes that are there already do not touch the user pages. -/
theorem sent_byte (hbuf : Buffer m r uva kva size) (hn : n ≤ size.toNat) (hreach : Reaches m r uva n)
    (ha : translate m r (uva + BitVec.ofNat 64 k) = some a) :
    (sent .copyInStr m r uva kva n).byte a = m.byte a := by
  rw [sent_copyInStr]
  refine (sent_carried (.inl rfl) hbuf n hn hreach).frame a fun i hi hb => ?_
  exact hbuf.apart (hi.trans_le hn) (hreach.mono hi) hb ha

/-- What the loop leaves: the bytes up to the first NUL; or those before the end or the first page that
fails the test, none of them NUL. -/
def StrSent (m : Mem) (r uva kva size : Word) (err : Bool) (m' : Mem) : Prop :=
  ∃ n ≤ size.toNat, Reaches m r uva n ∧ m' = sent .copyInStr m r uva kva n ∧
    match err with
    | false => ∃ j, n = j + 1 ∧ StringAt m r uva j
    | true => (∀ k < n, userChar m r uva k ≠ some 0) ∧
        (n < size.toNat → ¬Accessible m r (uva + BitVec.ofNat 64 n))

/-- **The loop**, when `j` bytes have been carried over, none of them NUL. -/
theorem copyStrLoop_spec (h : Built r m) (hbuf : Buffer m r uva kva size) :
    ∀ j < size.toNat, Reaches m r uva j → (∀ k < j, userChar m r uva k ≠ some 0) →
    wp (copyInOrOutMayStr r (uva + BitVec.ofNat 64 j) (kva + BitVec.ofNat 64 j)
      (size - BitVec.ofNat 64 j) .copyInStr) (StrSent m r uva kva size) E
      (sent .copyInStr m r uva kva j) := by
  intro j
  induction hrest : size.toNat - j using Nat.strongRecOn generalizing j with
  | ind rest ih =>
  intro hj hreach hnul
  refine copyTurn_spec h (sent_sameTable _ h hbuf j hj.le hreach) hj hreach
    (fun hnot => ⟨j, hj.le, hreach, rfl, hnul, fun _ => hnot⟩) fun start chunk hpos hle hreach' hbyte => ?_
  have hsize := size.isLt
  have hchar : ∀ i < chunk.toNat,
      userChar m r uva (j + i) = some (m.byte (start + BitVec.ofNat 64 i)) :=
    fun i hi => userChar_eq (hbyte i hi)
  have hbefore : ∀ i, i ≤ chunk.toNat → (∀ k < i, m.byte (start + BitVec.ofNat 64 k) ≠ 0) →
      ∀ k < j + i, userChar m r uva k ≠ some 0 := by
    intro i hi hall k hk
    by_cases hkj : k < j
    · exact hnul k hkj
    · obtain ⟨k, rfl⟩ := Nat.exists_eq_add_of_le (Nat.le_of_not_lt hkj)
      rw [hchar k (by omega)]
      exact fun hzero => hall k (by omega) (Option.some.inj hzero)
  refine wp_post (copyStrInPage_spec chunk.toNat (f := fun i => sent .copyInStr m r uva kva (j + i))
    (c := fun i => m.byte (start + BitVec.ofNat 64 i)) ?_) ?_
  · intro i hi
    obtain ⟨hdata, -, -⟩ := hbuf (j + i) (by omega) (hreach'.mono (by omega))
    rw [BitVec.ofNat_add, ← BitVec.add_assoc] at hdata
    have hsame := sent_byte hbuf (n := j + i) (by omega) (hreach'.mono (by omega)) (hbyte i hi)
    rw [sent_image]
    refine ⟨(h.translate_spare (hbyte i hi)).1.inRam, hdata, hsame, ?_⟩
    rw [← Nat.add_assoc, sent_succ (hbyte i hi), carry, hsame, BitVec.ofNat_add, ← BitVec.add_assoc]
  · rintro res m' (⟨rfl, i, hi, rfl, hzero, hall⟩ | ⟨rfl, rfl, hall⟩)
    · have hreach'' : Reaches m r uva (j + i + 1) := hreach'.mono (by omega)
      refine ⟨j + i + 1, by omega, hreach'', rfl, j + i, rfl, hreach'', ?_, hbefore i hi.le hall⟩
      rw [hchar i hi, hzero]
    · have hnul' := hbefore chunk.toNat le_rfl hall
      by_cases hend : j + chunk.toNat = size.toNat
      · have hmeet : (size - BitVec.ofNat 64 j == chunk) = true := by
          rw [beq_iff_eq]
          refine BitVec.eq_of_toNat_eq ?_
          rw [BitVec.toNat_sub, BitVec.toNat_ofNat]
          omega
        rw [if_pos hmeet]
        exact ⟨_, hle, hreach', rfl, hnul', fun hlt => absurd hend hlt.ne⟩
      · have hmeet : ¬(size - BitVec.ofNat 64 j == chunk) = true := by
          rw [beq_iff_eq]
          rintro rfl
          rw [BitVec.toNat_sub, BitVec.toNat_ofNat] at hend
          omega
        rw [if_neg hmeet]
        exact ih _ (by omega) _ rfl (by omega) hreach' hnul'

/-! ## What `copy_in_str` leaves -/

/-- **The string with its NUL and nothing else**, or nothing past the buffer. -/
structure StringCopied (m : Mem) (r uva kva size : Word) (err : Bool) (m' : Mem) : Prop where
  ok_iff : err = false ↔ ∃ j < size.toNat, StringAt m r uva j
  string : ∀ j < size.toNat, StringAt m r uva j →
    (∀ k ≤ j, some (m'.byte (kva + BitVec.ofNat 64 k)) = userChar m r uva k) ∧
    ∀ a, (∀ k ≤ j, a ≠ kva + BitVec.ofNat 64 k) → m'.byte a = m.byte a
  bounded : ∀ a, (∀ k < size.toNat, a ≠ kva + BitVec.ofNat 64 k) → m'.byte a = m.byte a
  rest : m' = { m with cell := m'.cell }

/-- The bytes of a buffer are at different addresses. -/
theorem buffer_injective (hk : k < 2 ^ 64) (hj : j < 2 ^ 64)
    (h : kva + BitVec.ofNat 64 k = kva + BitVec.ofNat 64 j) : k = j := by
  have heq : BitVec.ofNat 64 k = BitVec.ofNat 64 j := BitVec.add_right_inj kva |>.mp h
  have hnat := congrArg BitVec.toNat heq
  rwa [BitVec.toNat_ofNat, BitVec.toNat_ofNat, Nat.mod_eq_of_lt hk, Nat.mod_eq_of_lt hj] at hnat

theorem StrSent.copied {err : Bool} (hbuf : Buffer m r uva kva size)
    (hsent : StrSent m r uva kva size err m') : StringCopied m r uva kva size err m' := by
  obtain ⟨n, hn, hreach, hmem, hend⟩ := hsent
  have hsize := size.isLt
  have hcarried := sent_carried (.inl rfl : CopyWay.copyIn.Plain) hbuf n hn hreach
  rw [← sent_copyInStr, ← hmem] at hcarried
  have hframe : ∀ a, (∀ k < n, a ≠ kva + BitVec.ofNat 64 k) → m'.byte a = m.byte a := hcarried.frame
  have hok : err = false ↔ ∃ j < size.toNat, StringAt m r uva j := by
    cases err with
    | false =>
      obtain ⟨j, rfl, hstring⟩ := hend
      exact ⟨fun _ => ⟨j, hn, hstring⟩, fun _ => rfl⟩
    | true =>
      obtain ⟨hnul, hfail⟩ := hend
      refine ⟨nofun, ?_⟩
      rintro ⟨j, hj, hstring⟩
      by_cases hjn : j < n
      · exact absurd hstring.nul (hnul j hjn)
      · exact absurd (hstring.readable n (by omega)) (hfail (by omega))
  refine ⟨hok, fun j hj hstring => ?_, fun a ha => hframe a fun k hk => ha k (hk.trans_le hn),
    hcarried.rest⟩
  obtain rfl : err = false := hok.mpr ⟨j, hj, hstring⟩
  obtain ⟨i, rfl, hi⟩ := hend
  obtain rfl := hi.unique hstring
  refine ⟨fun k hk => ?_, fun a ha => hframe a fun k hk => ha k (Nat.lt_succ_iff.mp hk)⟩
  obtain ⟨a, ha⟩ := accessible_iff.mp (hreach k (Nat.lt_succ_iff.mpr hk))
  rw [userChar_eq ha]
  refine congrArg some (hcarried.last k (Nat.lt_succ_iff.mpr hk) _ _ rfl ha fun i hi hki hsame => ?_)
  exact hki.ne (buffer_injective (by omega) (by omega) hsame)

/-- **`copy_in_str` is bounded and exact**: on a table built by the operations it ends, returns 0 when a
string begins at the address and fits into the buffer, and has then copied it with its NUL and no more;
it never writes past the buffer. -/
theorem copyInStr_exact (hfree : FreeList m₀ l₀) (hget : getPagetable m₀ = .ok (some r, m₁))
    (hreach : Run.Reach (useStep r) (fun m u => u.Ok r m) m₁ m) (hbuf : Buffer m r uva kva size)
    (hpos : 0 < size.toNat) :
    ∃ err m', copyInStr r uva kva size m = .ok (err, m') ∧ StringCopied m r uva kva size err m' := by
  have hbuilt := built_of_reach hfree hget hreach
  have hloop := copyStrLoop_spec (E := fun _ => False) hbuilt hbuf 0 hpos
    (fun k hk => absurd hk (Nat.not_lt_zero k)) fun k hk => absurd hk (Nat.not_lt_zero k)
  rw [BitVec.add_zero, BitVec.add_zero, BitVec.sub_zero] at hloop
  obtain ⟨err, m', hrun, hsent⟩ := hloop.ends
  exact ⟨err, m', hrun, hsent.copied hbuf⟩

/-- Four characters at the end of the first page, four at the start of the second one, and a NUL. -/
theorem filledTable_string : StringAt filledTable smallRoot 0x1ffc 8 := by
  have hseen : (∀ k < 9, (translate filledTable smallRoot (0x1ffc + BitVec.ofNat 64 k)).isSome = true) ∧
      userChar filledTable smallRoot 0x1ffc 8 = some 0 ∧
      ∀ k < 8, userChar filledTable smallRoot 0x1ffc k ≠ some 0 := by
    decide +kernel
  obtain ⟨hread, hnul, hbefore⟩ := hseen
  exact ⟨fun k hk => accessible_iff.mpr (Option.isSome_iff_exists.mp (hread k hk)), hnul, hbefore⟩

/-- The theorem on that string. -/
theorem copyInStr_exact_filledTable : StringAt filledTable smallRoot 0x1ffc 8 ∧
    ∃ m', copyInStr smallRoot 0x1ffc 0x87ff9000 0x1000 filledTable = .ok (false, m') ∧
      StringCopied filledTable smallRoot 0x1ffc 0x87ff9000 0x1000 false m' := by
  obtain ⟨l, hfree⟩ := smallMem_free
  obtain ⟨err, m', hrun, hcopied⟩ := copyInStr_exact hfree smallTable_get filledTable_reach
    (filledTable_buffer 0x1ffc (by decide : (0x1000 : Word).toNat ≤ 0x2000)) (by decide)
  obtain rfl : err = false := hcopied.ok_iff.mpr ⟨8, by decide, filledTable_string⟩
  exact ⟨filledTable_string, m', hrun, hcopied⟩

end Vm

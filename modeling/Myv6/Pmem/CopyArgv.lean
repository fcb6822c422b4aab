import Myv6.Pmem.Intact
import Myv6.Vm.CopyStr

/-!
# Pmem/CopyArgv — `copy_in_argv`, and the page it copies to

    page   | path │ str_in_argv[0] │ str_in_argv[1] │ … │ argv[0] … argv[31] │
             128    64               64                   8 bytes each

What user code has at an address is a word (`UserWord`), a string (`Spells`) or an array of strings
(`UserArgv`).  `Scratch` is a page of the kernel beside the table of a process: what is copied to it
changes nothing that user code sees, so `copy_in_argv` copies an array that fits, and no other.
-/

namespace Pmem

open Function (update)
open Bytes Hoare Own Vm

/-! ## The code -/

def argvn : ℕ := 32

def maxpath : ℕ := 128

/-- `str_in_argv[i]` in the page. -/
def strSlot (page : Word) (i : ℕ) : Word := page + BitVec.ofNat 64 (maxpath + argvStrLen * i)

/-- `&argv[i]` in the page. -/
def argvSlot (page : Word) (i : ℕ) : Word :=
  page + BitVec.ofNat 64 (maxpath + argvn * argvStrLen + 8 * i)

/-- The word of the page that is `argv[i]`. -/
def argvIndex (i : ℕ) : Fin 512 := Fin.ofNat 512 ((maxpath + argvn * argvStrLen) / 8 + i)

/-- The first loop of `copy_in_argv`, with the turns left: `argc`, or `none` for `-1`. -/
def copyInPointers (pgtable argvUva page : Word) : ℕ → ℕ → Kernel (Option ℕ)
  | 0, _ => pure (some 0)
  | k + 1, i => do
    if ← copyIn pgtable (argvUva + BitVec.ofNat 64 (8 * i)) (argvSlot page i) 8 then
      pure none
    else if (← inspect fun m => m.cell page (argvIndex i)) = 0 then
      pure (some i)
    else
      copyInPointers pgtable argvUva page k (i + 1)

/-- The second loop, with the turns left; `true` for `-1`. -/
def copyInStrings (pgtable page : Word) : ℕ → ℕ → Kernel Bool
  | 0, _ => pure false
  | k + 1, i => do
    let uva ← inspect fun m => m.cell page (argvIndex i)
    if ← copyInStr pgtable uva (strSlot page i) (BitVec.ofNat 64 argvStrLen) then
      pure true
    else
      alter fun m => m.fill page (update (m.cell page) (argvIndex i) (strSlot page i))
      copyInStrings pgtable page k (i + 1)

/-- Returns `argc`, or `none` for `-1`. -/
def copyInArgv (pgtable argvUva page : Word) : Kernel (Option ℕ) := do
  match ← copyInPointers pgtable argvUva page argvn 0 with
  | none => pure none
  | some argc =>
    if (← inspect fun m => m.cell page (argvIndex (argvn - 1))) ≠ 0 then
      pure none
    else if ← copyInStrings pgtable page argc 0 then
      pure none
    else
      pure (some argc)

/-- The C string at byte `off` of a page, within `n` bytes. -/
def cString (f : Fin 512 → Word) (off : ℕ) : ℕ → List Byte
  | 0 => []
  | n + 1 => if byteAt f off = 0 then [] else byteAt f off :: cString f (off + 1) n

variable {m m' m'' : Mem} {l l' : List Word} {r page uva a w w' : Word} {off n k i j : ℕ}
  {E : Panic → Prop}

/-! ## What user code has at an address -/

/-- **A word at a user address.** -/
def UserWord (m : Mem) (r uva w : Word) : Prop := ∀ k < 8, userChar m r uva k = some (byteOf w k)

theorem UserWord.unique (h : UserWord m r uva w) (h' : UserWord m r uva w') : w = w' := by
  rw [← wordOf_byteOf (w := w), ← wordOf_byteOf (w := w')]
  exact wordOf_congr fun k hk => Option.some.inj ((h k hk).symm.trans (h' k hk))

/-- The characters `c` spell the string `bs`, with its NUL. -/
structure Spells (c : ℕ → Option Byte) (bs : List Byte) : Prop where
  char : ∀ k (hk : k < bs.length), c k = some bs[k]
  nul : c bs.length = some 0
  ne_zero : 0 ∉ bs

namespace Spells

variable {c c' : ℕ → Option Byte} {bs bs' : List Byte} {f : Fin 512 → Word}

theorem congr (h : Spells c bs) (hc : ∀ k ≤ bs.length, c' k = c k) : Spells c' bs :=
  ⟨fun k hk => (hc k hk.le).trans (h.char k hk), (hc _ le_rfl).trans h.nul, h.ne_zero⟩

theorem tail {b : Byte} (h : Spells c (b :: bs)) : Spells (fun k => c (k + 1)) bs :=
  ⟨fun k hk => h.char (k + 1) (Nat.succ_lt_succ hk), h.nul, fun hb => h.ne_zero (List.mem_cons_of_mem _ hb)⟩

theorem head {b : Byte} (h : Spells c (b :: bs)) : c 0 = some b ∧ b ≠ 0 :=
  ⟨h.char 0 (Nat.succ_pos _), fun hb => h.ne_zero (hb ▸ List.mem_cons_self)⟩

/-- Characters spell one string. -/
theorem unique : ∀ {bs bs' : List Byte} {c : ℕ → Option Byte}, Spells c bs → Spells c bs' → bs = bs'
  | [], [], _, _, _ => rfl
  | [], _ :: _, _, h, h' => absurd (Option.some.inj (h'.head.1.symm.trans h.nul)) h'.head.2
  | _ :: _, [], _, h, h' => absurd (Option.some.inj (h.head.1.symm.trans h'.nul)) h.head.2
  | b :: bs, b' :: bs', c, h, h' => by
    obtain rfl : b = b' := Option.some.inj (h.head.1.symm.trans h'.head.1)
    rw [unique h.tail h'.tail]

/-- A spelled string is the string at its address. -/
theorem stringAt (h : Spells (userChar m r uva) bs) : StringAt m r uva bs.length := by
  have hsome : ∀ k ≤ bs.length, ∃ b, userChar m r uva k = some b := by
    intro k hk
    rcases hk.lt_or_eq with hlt | rfl
    · exact ⟨_, h.char k hlt⟩
    · exact ⟨_, h.nul⟩
  refine ⟨fun k hk => ?_, h.nul, fun k hk hzero => ?_⟩
  · obtain ⟨b, hb⟩ := hsome k (Nat.lt_succ_iff.mp hk)
    obtain ⟨a, ha, -⟩ := Option.map_eq_some_iff.mp hb
    exact accessible_iff.mpr ⟨a, ha⟩
  · have hb := Option.some.inj ((h.char k hk).symm.trans hzero)
    exact h.ne_zero (hb ▸ List.getElem_mem hk)

/-- **The C string of a page.** -/
theorem cString_eq : ∀ {bs : List Byte} {off n : ℕ}, Spells (fun k => some (byteAt f (off + k))) bs →
    bs.length < n → cString f off n = bs
  | [], off, 0, _, hn => absurd hn (Nat.not_lt_zero _)
  | [], off, n + 1, h, _ => if_pos (Option.some.inj h.nul)
  | b :: bs, off, 0, _, hn => absurd hn (Nat.not_lt_zero _)
  | b :: bs, off, n + 1, h, hn => by
    obtain ⟨hb, hne⟩ := h.head
    obtain rfl : byteAt f off = b := Option.some.inj hb
    have htail : Spells (fun k => some (byteAt f (off + 1 + k))) bs := h.tail.congr fun k _ => by
      rw [Nat.add_right_comm, Nat.add_assoc]
    rw [cString, if_neg hne, htail.cString_eq (Nat.lt_of_succ_lt_succ hn)]

end Spells

/-- The string at an address can be spelled. -/
theorem spells_of_stringAt (h : StringAt m r uva j) :
    ∃ bs, bs.length = j ∧ Spells (userChar m r uva) bs := by
  have hsome : ∀ k ≤ j, ∃ b, userChar m r uva k = some b := by
    intro k hk
    obtain ⟨a, ha⟩ := accessible_iff.mp (h.readable k (Nat.lt_succ_iff.mpr hk))
    exact ⟨_, Vm.userChar_eq ha⟩
  have hlen : ((List.range j).map fun k => (userChar m r uva k).getD 0).length = j := by simp
  refine ⟨(List.range j).map fun k => (userChar m r uva k).getD 0, hlen, fun k hk => ?_, ?_, ?_⟩
  · obtain ⟨b, hb⟩ := hsome k (hlen ▸ hk).le
    simp [hb]
  · rw [hlen]
    exact h.nul
  · intro hmem
    obtain ⟨k, hk, hzero⟩ := List.mem_map.mp hmem
    obtain ⟨b, hb⟩ := hsome k (List.mem_range.mp hk).le
    rw [hb, Option.getD_some] at hzero
    exact h.before k (List.mem_range.mp hk) (hzero ▸ hb)

/-- **An array of strings at a user address**: pointers and a `NULL`. -/
structure UserArgv (m : Mem) (r uva : Word) (ptr : ℕ → Word) (args : List (List Byte)) : Prop where
  pointer : ∀ i < args.length, UserWord m r (uva + BitVec.ofNat 64 (8 * i)) (ptr i) ∧ ptr i ≠ 0
  null : UserWord m r (uva + BitVec.ofNat 64 (8 * args.length)) 0
  string : ∀ i (hi : i < args.length), Spells (userChar m r (ptr i)) args[i]

/-- An address has one array. -/
theorem UserArgv.unique {ptr ptr' : ℕ → Word} {args args' : List (List Byte)}
    (h : UserArgv m r uva ptr args) (h' : UserArgv m r uva ptr' args') : args = args' := by
  have hlen : args.length = args'.length := by
    rcases Nat.lt_trichotomy args.length args'.length with hlt | heq | hgt
    · obtain ⟨hword, hne⟩ := h'.pointer _ hlt
      exact absurd (hword.unique h.null) hne
    · exact heq
    · obtain ⟨hword, hne⟩ := h.pointer _ hgt
      exact absurd (hword.unique h'.null) hne
  refine List.ext_getElem hlen fun i hi hi' => ?_
  have hptr : ptr i = ptr' i := (h.pointer i hi).1.unique (h'.pointer i hi').1
  exact (h.string i hi).unique (hptr ▸ h'.string i hi')

/-! ## The words of the page -/

theorem argvIndex_val (hi : i < argvn) : (argvIndex i : ℕ) = 272 + i := by
  rw [argvIndex, Fin.val_ofNat]
  unfold argvn at hi
  exact Nat.mod_eq_of_lt (by unfold maxpath argvn argvStrLen; omega)

theorem argvIndex_ne (hi : i < argvn) (hj : j < argvn) (hij : i ≠ j) : argvIndex i ≠ argvIndex j := by
  intro heq
  have hval := congrArg Fin.val heq
  rw [argvIndex_val hi, argvIndex_val hj] at hval
  omega

/-- The same bytes are the same word. -/
theorem word_eq_of_bytes {f g : Fin 512 → Word} {q : Fin 512}
    (h : ∀ k < 4096, k / 8 = (q : ℕ) → byteAt f k = byteAt g k) : f q = g q := by
  have hq := q.isLt
  have hword : ∀ f : Fin 512 → Word, ∀ k < 8, byteAt f (8 * q + k) = byteOf (f q) k := by
    intro f k hk
    have hidx : Fin.ofNat 512 ((8 * q + k) / 8) = q := by
      refine Fin.ext ?_
      rw [Fin.val_ofNat]
      omega
    have hoff : (8 * (q : ℕ) + k) % 8 = k := by omega
    rw [byteAt, hidx, hoff]
  rw [← wordOf_byteOf (w := f q), ← wordOf_byteOf (w := g q)]
  refine wordOf_congr fun k hk => ?_
  rw [← hword f k hk, ← hword g k hk]
  exact h _ (by omega) (by omega)

/-- The same word is the same bytes. -/
theorem byteAt_update {f : Fin 512 → Word} {q : Fin 512} (hk : k < 4096) (hne : k / 8 ≠ (q : ℕ)) :
    byteAt (update f q w) k = byteAt f k := by
  unfold byteAt
  rw [Function.update_of_ne]
  intro heq
  have hval := congrArg Fin.val heq
  rw [Fin.val_ofNat] at hval
  omega

/-! ## The page beside the table -/

/-- Nothing but the page is written. -/
structure Only (page : Word) (m m' : Mem) : Prop where
  rest : m' = { m with cell := m'.cell }
  cell : ∀ q ≠ page, m'.cell q = m.cell q

theorem Only.refl : Only page m m := ⟨rfl, fun _ _ => rfl⟩

theorem Only.trans (h : Only page m m') (h' : Only page m' m'') : Only page m m'' := by
  refine ⟨?_, fun q hq => (h'.cell q hq).trans (h.cell q hq)⟩
  rw [h'.rest, h.rest]

theorem Only.fill {f : Fin 512 → Word} : Only page m (m.fill page f) :=
  ⟨rfl, fun _ hq => Mem.fill_cell_ne hq⟩

/-- **A page of the kernel beside a table**: nobody else has it, and user code does not reach it. -/
structure Scratch (m : Mem) (l : List Word) (r page : Word) : Prop where
  built : Built r m
  free : FreeList m l
  isPage : m.image.IsPage page
  out : l.count page + tables m r page = 0
  apart : ∀ v, userPage m r v ≠ some page

/-- **Where a byte of a page is.** -/
theorem page_offset (hal : page.toNat % 4096 = 0) (hk : k < 4096) :
    roundDownPgsize (page + BitVec.ofNat 64 k) = page ∧ (page + BitVec.ofNat 64 k).toNat % 4096 = k := by
  have hlt := page.isLt
  have hadd : (page + BitVec.ofNat 64 k).toNat = page.toNat + k := by
    rw [BitVec.toNat_add, BitVec.toNat_ofNat]
    omega
  refine ⟨BitVec.eq_of_toNat_eq ?_, ?_⟩
  · rw [roundDownPgsize_toNat, hadd]
    omega
  · rw [hadd]
    omega

theorem byte_page (hal : page.toNat % 4096 = 0) (hk : k < 4096) :
    m.byte (page + BitVec.ofNat 64 k) = byteAt (m.cell page) k := by
  obtain ⟨hpage, hoff⟩ := page_offset hal hk
  rw [Mem.byte, hpage, hoff]

/-- **A page that user code reaches**: at an address of it there are its bytes. -/
theorem userChar_of_page {base p : Word} (hp : userPage m r (vpn base) = some p)
    (hal : base.toNat % 4096 = 0) (hk : off + k < 4096) :
    userChar m r (base + BitVec.ofNat 64 off) k = some (byteAt (m.cell p) (off + k)) := by
  have hlt := base.isLt
  have haddr : base + BitVec.ofNat 64 off + BitVec.ofNat 64 k = base + BitVec.ofNat 64 (off + k) := by
    rw [BitVec.ofNat_add, BitVec.add_assoc]
  have hvpn : vpn (base + BitVec.ofNat 64 (off + k)) = vpn base := by
    rw [vpn, vpn, BitVec.toNat_add, BitVec.toNat_ofNat]
    omega
  have hmod : (base + BitVec.ofNat 64 (off + k)) % pgsize = BitVec.ofNat 64 (off + k) := by
    refine BitVec.eq_of_toNat_eq ?_
    rw [umod_pgsize_toNat, (page_offset hal hk).2, BitVec.toNat_ofNat]
    omega
  rw [userChar, haddr, Vm.translate, hvpn, hp, Option.map_some, Option.map_some, hmod,
    byte_page (userPage_aligned hp) hk]

/-- Its words. -/
theorem userWord_of_page {base p : Word} {q : ℕ} (hp : userPage m r (vpn base) = some p)
    (hal : base.toNat % 4096 = 0) (hq : q < 512) :
    UserWord m r (base + BitVec.ofNat 64 (8 * q)) (m.cell p (Fin.ofNat 512 q)) := by
  intro k hk
  have hidx : (8 * q + k) / 8 = q := by omega
  have hoff : (8 * q + k) % 8 = k := by omega
  rw [userChar_of_page hp hal (by omega), byteAt, hidx, hoff]

namespace Scratch

variable (h : Scratch m l r page)

include h

theorem aligned : page.toNat % 4096 = 0 := h.isPage.isFrame.aligned

/-- **What is written to the page** changes nothing else. -/
theorem write (hm : Only page m m') : Scratch m' l r page := by
  have hkept : ∀ p, 0 < tables m r p → m'.cell p = m.cell p := by
    intro p hp
    refine hm.cell p ?_
    rintro rfl
    have hout := h.out
    omega
  have hhead : m'.head = m.head := by rw [hm.rest]
  have himage : m'.image = m.image := by rw [hm.rest]
  have hfree : FreeList m' l := h.free.congr hhead himage fun q hq => by
    refine hm.cell q ?_
    rintro rfl
    have hcount := List.count_pos_iff.mpr hq
    have hout := h.out
    omega
  obtain ⟨l₀, hl₀, honce⟩ := h.built.sound
  obtain rfl := h.free.unique hl₀
  obtain ⟨htab, -, hpages⟩ := table_congr hkept
  refine ⟨h.built.of_kept hfree himage hkept honce fun v p hp => ?_, hfree, himage ▸ h.isPage, ?_, fun v => ?_⟩
  · have hzero := (h.built.live v p hp).2 l h.free
    omega
  · rw [htab]
    exact h.out
  · rw [userPage_congr (congrFun hpages v)]
    exact h.apart v

/-- User code sees the same bytes. -/
theorem userChar_eq (hm : Only page m m') : userChar m' r uva k = userChar m r uva k := by
  have hkept : ∀ p, 0 < tables m r p → m'.cell p = m.cell p := by
    intro p hp
    refine hm.cell p ?_
    rintro rfl
    have hout := h.out
    omega
  obtain ⟨-, -, hpages⟩ := table_congr hkept
  unfold userChar Vm.translate
  rw [userPage_congr (congrFun hpages _)]
  cases hp : userPage m r (vpn (uva + BitVec.ofNat 64 k)) with
  | none => rfl
  | some p =>
    have hne : p ≠ page := by
      rintro rfl
      exact h.apart _ hp
    simp only [Option.map_some, Mem.byte, roundDownPgsize_add (userPage_aligned hp), hm.cell p hne]

/-- **A part of the page is a buffer.** -/
theorem buffer (uva : Word) {size : Word} (hoff : off + size.toNat ≤ 4096) :
    Buffer m r uva (page + BitVec.ofNat 64 off) size := by
  intro k hk _
  obtain ⟨hround, hrest⟩ := page_offset h.aligned (k := off + k) (by omega)
  have hadd : page + BitVec.ofNat 64 off + BitVec.ofNat 64 k = page + BitVec.ofNat 64 (off + k) := by
    rw [BitVec.ofNat_add, BitVec.add_assoc]
  rw [hadd, hround]
  refine ⟨?_, ?_, h.apart⟩
  · have hin : m.image.InData (page + BitVec.ofNat 64 (off + k) % pgsize) :=
      h.isPage.inData.add h.aligned
    have hmod : BitVec.ofNat 64 (off + k) % pgsize = BitVec.ofNat 64 (off + k) := by
      refine BitVec.eq_of_toNat_eq ?_
      rw [umod_pgsize_toNat, BitVec.toNat_ofNat]
      omega
    rwa [hmod] at hin
  · have hout := h.out
    omega

/-- **What a copy into the page leaves** after `n` bytes. -/
theorem sent {size : Word} (hoff : off + size.toNat ≤ 4096) (hn : n ≤ size.toNat)
    (hreach : Reaches m r uva n) :
    Only page m (sent .copyIn m r uva (page + BitVec.ofNat 64 off) n) ∧
    (∀ k < n, some (byteAt ((sent .copyIn m r uva (page + BitVec.ofNat 64 off) n).cell page) (off + k)) =
      userChar m r uva k) ∧
    ∀ k < 4096, k < off ∨ off + n ≤ k →
      byteAt ((sent .copyIn m r uva (page + BitVec.ofNat 64 off) n).cell page) k =
        byteAt (m.cell page) k := by
  have hadd : ∀ k, page + BitVec.ofNat 64 off + BitVec.ofNat 64 k = page + BitVec.ofNat 64 (off + k) := by
    intro k
    rw [BitVec.ofNat_add, BitVec.add_assoc]
  have hcarried := sent_carried (.inl rfl) (h.buffer uva hoff) n hn hreach
  have hcell : ∀ j ≤ n, ∀ q ≠ page,
      (Vm.sent .copyIn m r uva (page + BitVec.ofNat 64 off) j).cell q = m.cell q := by
    intro j
    induction j with
    | zero => exact fun _ _ _ => rfl
    | succ j ih =>
      intro hj q hq
      obtain ⟨a, ha⟩ := accessible_iff.mp (hreach j hj)
      rw [sent_succ ha, carry, hadd]
      refine (setByte_cell_ne ?_).trans (ih (by omega) q hq)
      rwa [(page_offset h.aligned (k := off + j) (by omega)).1]
  refine ⟨⟨hcarried.rest, hcell n le_rfl⟩, fun k hk => ?_, fun k hk hout => ?_⟩
  · obtain ⟨a, ha⟩ := accessible_iff.mp (hreach k hk)
    rw [Vm.userChar_eq ha, ← byte_page h.aligned (by omega), ← hadd]
    refine congrArg some (hcarried.last k hk _ _ rfl ha fun i hi hki hsame => ?_)
    exact hki.ne (buffer_injective (by omega) (by omega) hsame)
  · rw [← byte_page h.aligned hk, ← byte_page h.aligned hk]
    refine hcarried.frame _ fun i hi hsame => ?_
    have hboth := @buffer_injective page k (off + i) (by omega) (by omega)
      (hsame.trans (hadd i))
    omega

/-- **`copy_in` of a pointer** to its word of the page. -/
theorem copyIn_word (hi : i < argvn) : wp (copyIn r uva (argvSlot page i) 8) (fun err m' =>
    Only page m m' ∧ (∀ k < 4096, k / 8 ≠ (argvIndex i : ℕ) →
      byteAt (m'.cell page) k = byteAt (m.cell page) k) ∧
    match err with
    | false => UserWord m r uva (m'.cell page (argvIndex i))
    | true => ∀ w, ¬UserWord m r uva w) E m := by
  have hidx := argvIndex_val hi
  have hi : i < 32 := hi
  have hoff : maxpath + argvn * argvStrLen + 8 * i + (8 : Word).toNat ≤ 4096 := by
    have height : (8 : Word).toNat = 8 := rfl
    unfold maxpath argvn argvStrLen
    omega
  have hloop := copyLoop_spec (E := E) (.inl rfl) h.built (h.buffer uva hoff) 0 (Nat.zero_le _)
    fun k hk => absurd hk (Nat.not_lt_zero k)
  rw [BitVec.add_zero, BitVec.add_zero, BitVec.sub_zero] at hloop
  refine wp_post hloop ?_
  rintro err m' ⟨n, hn, hreach, rfl, hend⟩
  obtain ⟨honly, hchars, hrest⟩ := h.sent hoff hn hreach
  have hn : n ≤ 8 := hn
  refine ⟨honly, fun k hk hout => hrest k hk ?_, ?_⟩
  · unfold maxpath argvn argvStrLen
    omega
  · cases err with
    | false =>
      obtain rfl : n = 8 := hend
      intro k hk
      rw [← hchars k hk, byteAt]
      have hword : Fin.ofNat 512 ((maxpath + argvn * argvStrLen + 8 * i + k) / 8) = argvIndex i := by
        refine Fin.ext ?_
        rw [Fin.val_ofNat, hidx]
        unfold maxpath argvn argvStrLen
        omega
      have hbyte : (maxpath + argvn * argvStrLen + 8 * i + k) % 8 = k := by
        unfold maxpath argvn argvStrLen
        omega
      rw [hword, hbyte]
    | true =>
      obtain ⟨hlt, hnot⟩ := hend
      intro w hw
      obtain ⟨a, ha, -⟩ := Option.map_eq_some_iff.mp (hw n hlt)
      exact hnot (accessible_iff.mpr ⟨a, ha⟩)

/-- **`copy_in_str`** to a part of the page. -/
theorem copyInStr_part {size : Word} (hoff : off + size.toNat ≤ 4096) (hpos : 0 < size.toNat) :
    wp (copyInStr r uva (page + BitVec.ofNat 64 off) size) (fun err m' =>
    Only page m m' ∧ (∀ k < 4096, k < off ∨ off + size.toNat ≤ k →
      byteAt (m'.cell page) k = byteAt (m.cell page) k) ∧
    match err with
    | false => ∃ bs : List Byte, bs.length < size.toNat ∧ Spells (userChar m r uva) bs ∧
        Spells (fun k => some (byteAt (m'.cell page) (off + k))) bs
    | true => ∀ bs : List Byte, bs.length < size.toNat → ¬Spells (userChar m r uva) bs) E m := by
  have hbuf := h.buffer uva hoff
  have hloop := copyStrLoop_spec (E := E) h.built hbuf 0 hpos
    (fun k hk => absurd hk (Nat.not_lt_zero k)) fun k hk => absurd hk (Nat.not_lt_zero k)
  rw [BitVec.add_zero, BitVec.add_zero, BitVec.sub_zero] at hloop
  refine wp_post hloop ?_
  intro err m' hsent
  have hok := (hsent.copied hbuf).ok_iff
  obtain ⟨n, hn, hreach, rfl, hend⟩ := hsent
  rw [sent_copyInStr]
  obtain ⟨honly, hchars, hrest⟩ := h.sent hoff hn hreach
  refine ⟨honly, fun k hk hout => hrest k hk (by omega), ?_⟩
  cases err with
  | false =>
    obtain ⟨j, rfl, hstring⟩ := hend
    obtain ⟨bs, rfl, hspells⟩ := spells_of_stringAt hstring
    exact ⟨bs, hn, hspells, hspells.congr fun k hk => hchars k (Nat.lt_succ_iff.mpr hk)⟩
  | true =>
    intro bs hlt hspells
    exact absurd (hok.mpr ⟨_, hlt, hspells.stringAt⟩) (by decide)

end Scratch

/-- What the first loop of `copy_in_argv` leaves: the pointers before the first `NULL`; without one among
the first `ARGVN`, no 0 in the last word. -/
def Pointed (m₀ : Mem) (r argvUva page : Word) (ret : Option ℕ) (m' : Mem) : Prop :=
  Only page m₀ m' ∧ (∀ k < 2176, byteAt (m'.cell page) k = byteAt (m₀.cell page) k) ∧
  match ret with
  | none => ∃ i < argvn, (∀ k < i, ¬UserWord m₀ r (argvUva + BitVec.ofNat 64 (8 * k)) 0) ∧
      ∀ w, ¬UserWord m₀ r (argvUva + BitVec.ofNat 64 (8 * i)) w
  | some argc => (∀ k < argc, UserWord m₀ r (argvUva + BitVec.ofNat 64 (8 * k))
        (m'.cell page (argvIndex k)) ∧ m'.cell page (argvIndex k) ≠ 0) ∧
      (argc < argvn ∧ UserWord m₀ r (argvUva + BitVec.ofNat 64 (8 * argc)) 0 ∧
          m'.cell page (argvIndex (argvn - 1)) = 0 ∨
        m'.cell page (argvIndex (argvn - 1)) ≠ 0 ∧
          ∀ k < argvn, ¬UserWord m₀ r (argvUva + BitVec.ofNat 64 (8 * k)) 0)

/-- **The first loop**, when `i` pointers have been copied, none of them `NULL`. -/
theorem copyInPointers_spec {m₀ : Mem} {argvUva : Word} (h : Scratch m₀ l r page) : ∀ {t i : ℕ} {m : Mem},
    i + t = argvn → Only page m₀ m → (∀ k < 2176, byteAt (m.cell page) k = byteAt (m₀.cell page) k) →
    (∀ k < i, UserWord m₀ r (argvUva + BitVec.ofNat 64 (8 * k)) (m.cell page (argvIndex k)) ∧
      m.cell page (argvIndex k) ≠ 0) →
    (∀ k, i ≤ k → k < argvn → m.cell page (argvIndex k) = 0) →
    wp (copyInPointers r argvUva page t i) (Pointed m₀ r argvUva page) E m
  | 0, i, m, hi, hm, hlow, hptr, _ => by
    obtain rfl : i = argvn := hi
    refine ⟨hm, hlow, fun k hk => absurd hk (Nat.not_lt_zero k), .inr ⟨(hptr _ (by decide)).2, ?_⟩⟩
    intro k hk hnull
    exact (hptr k hk).2 ((hptr k hk).1.unique hnull)
  | t + 1, i, m, hi, hm, hlow, hptr, hrest => by
    have hlt : i < argvn := by omega
    have hnot : ∀ k < i, ¬UserWord m₀ r (argvUva + BitVec.ofNat 64 (8 * k)) 0 := fun k hk hnull =>
      (hptr k hk).2 ((hptr k hk).1.unique hnull)
    have hword : ∀ {uva w : Word}, UserWord m r uva w ↔ UserWord m₀ r uva w := by
      intro uva w
      exact forall_congr' fun k => forall_congr' fun _ => by rw [h.userChar_eq hm]
    rw [copyInPointers, wp_bind]
    refine wp_post ((h.write hm).copyIn_word hlt) ?_
    rintro err m' ⟨hm', hbytes, hend⟩
    have hidx := argvIndex_val hlt
    have hlow' : ∀ k < 2176, byteAt (m'.cell page) k = byteAt (m₀.cell page) k := fun k hk =>
      (hbytes k (by omega) (by omega)).trans (hlow k hk)
    have hother : ∀ k < argvn, k ≠ i → m'.cell page (argvIndex k) = m.cell page (argvIndex k) := by
      intro k hk hki
      refine word_eq_of_bytes fun b hb hbk => hbytes b hb ?_
      rw [hbk]
      exact fun heq => argvIndex_ne hk hlt hki (Fin.ext heq)
    cases err with
    | true => exact ⟨hm.trans hm', hlow', i, hlt, hnot, fun w hw => hend w (hword.mpr hw)⟩
    | false =>
      have hend : UserWord m₀ r (argvUva + BitVec.ofNat 64 (8 * i)) (m'.cell page (argvIndex i)) :=
        hword.mp hend
      have hptr' : ∀ k < i, UserWord m₀ r (argvUva + BitVec.ofNat 64 (8 * k))
          (m'.cell page (argvIndex k)) ∧ m'.cell page (argvIndex k) ≠ 0 := by
        intro k hk
        rw [hother k (hk.trans hlt) hk.ne]
        exact hptr k hk
      have hrest' : ∀ k, i < k → k < argvn → m'.cell page (argvIndex k) = 0 := fun k hik hk =>
        (hother k hk hik.ne').trans (hrest k hik.le hk)
      rw [if_neg (by decide), wp_bind, wp_inspect]
      split
      · next hzero =>
        rw [hzero] at hend
        refine ⟨hm.trans hm', hlow', hptr', .inl ⟨hlt, hend, ?_⟩⟩
        rcases Nat.lt_or_ge i (argvn - 1) with hlast | hlast
        · exact hrest' _ hlast (by decide)
        · obtain rfl : i = argvn - 1 := by omega
          exact hzero
      · next hne =>
        refine copyInPointers_spec h (by omega) (hm.trans hm') hlow' (fun k hk => ?_) fun k hk => hrest' k hk
        rcases Nat.lt_succ_iff_lt_or_eq.mp hk with hk | rfl
        · exact hptr' k hk
        · exact ⟨hend, hne⟩

/-- The string at the pointer `p` has been copied to its slot of the page. -/
def Stored (m₀ : Mem) (r p page : Word) (m : Mem) (k : ℕ) : Prop :=
  ∃ bs : List Byte, bs.length < argvStrLen ∧ Spells (userChar m₀ r p) bs ∧
    Spells (fun b => some (byteAt (m.cell page) (maxpath + argvStrLen * k + b))) bs

/-- The slot has not been written since. -/
theorem Stored.mono {m₀ : Mem} {p : Word} (h : Stored m₀ r p page m k)
    (hsame : ∀ b < argvStrLen, byteAt (m'.cell page) (maxpath + argvStrLen * k + b) =
      byteAt (m.cell page) (maxpath + argvStrLen * k + b)) : Stored m₀ r p page m' k := by
  obtain ⟨bs, hlt, hspells, hslot⟩ := h
  exact ⟨bs, hlt, hspells, hslot.congr fun b hb => congrArg some (hsame b (by omega))⟩

/-- **The second loop**, when `i` strings have been copied. -/
theorem copyInStrings_spec {m₀ : Mem} (ptr : ℕ → Word) {argc : ℕ} (h : Scratch m₀ l r page)
    (hargc : argc < argvn) : ∀ {t i : ℕ} {m : Mem}, i + t = argc → Only page m₀ m →
    (∀ k < maxpath, byteAt (m.cell page) k = byteAt (m₀.cell page) k) →
    (∀ k, i ≤ k → k < argc → m.cell page (argvIndex k) = ptr k) →
    (∀ k < i, Stored m₀ r (ptr k) page m k) →
    wp (copyInStrings r page t i) (fun err m' => Only page m₀ m' ∧
      (∀ k < maxpath, byteAt (m'.cell page) k = byteAt (m₀.cell page) k) ∧
      match err with
      | false => ∀ k < argc, Stored m₀ r (ptr k) page m' k
      | true => ∃ k < argc, ∀ bs : List Byte, bs.length < argvStrLen →
          ¬Spells (userChar m₀ r (ptr k)) bs) E m
  | 0, i, m, hi, hm, hlow, _, hdone => by
    obtain rfl : i = argc := hi
    exact ⟨hm, hlow, hdone⟩
  | t + 1, i, m, hi, hm, hlow, hptr, hdone => by
    have hlt : i < argc := by omega
    have hin : i < argvn := hlt.trans hargc
    have hin' : i < 32 := hin
    have hidx := argvIndex_val hin
    have hlen : (BitVec.ofNat 64 argvStrLen).toNat = argvStrLen := by decide
    have hslot : maxpath + argvStrLen * i + (BitVec.ofNat 64 argvStrLen).toNat ≤ 2176 := by
      rw [hlen]
      unfold maxpath argvStrLen
      omega
    have hchar : userChar m r (ptr i) = userChar m₀ r (ptr i) := funext fun k => h.userChar_eq hm
    rw [copyInStrings, wp_bind, wp_inspect, hptr i le_rfl hlt, wp_bind]
    refine wp_post ((h.write hm).copyInStr_part (hslot.trans (by decide)) (by decide)) ?_
    rw [hchar, hlen]
    rw [hlen] at hslot
    rintro err m' ⟨hm', hbytes, hend⟩
    have hlow' : ∀ k < maxpath, byteAt (m'.cell page) k = byteAt (m₀.cell page) k := by
      intro k hk
      refine (hbytes k (hk.trans (by decide)) (.inl ?_)).trans (hlow k hk)
      exact hk.trans_le (Nat.le_add_right _ _)
    cases err with
    | true => exact ⟨hm.trans hm', hlow', i, hlt, hend⟩
    | false =>
      rw [if_neg (by decide), wp_bind, wp_alter]
      have hfill : ∀ k < 2176, byteAt ((m'.fill page (update (m'.cell page) (argvIndex i)
          (strSlot page i))).cell page) k = byteAt (m'.cell page) k := by
        intro k hk
        rw [Mem.fill_cell_self]
        exact byteAt_update (by omega) (by omega)
      refine copyInStrings_spec ptr h hargc (by omega) ((hm.trans hm').trans .fill) (fun k hk => ?_)
        (fun k hik hk => ?_) fun k hk => ?_
      · exact (hfill k (hk.trans (by decide))).trans (hlow' k hk)
      · have hkn : k < argvn := hk.trans hargc
        have hne := argvIndex_ne hkn hin (Nat.ne_of_gt hik)
        rw [Mem.fill_cell_self, Function.update_of_ne hne, ← hptr k (Nat.le_of_succ_le hik) hk]
        refine word_eq_of_bytes fun b hb hbk => hbytes b hb (.inr (hslot.trans ?_))
        rw [argvIndex_val hkn] at hbk
        omega
      · have hk32 : k < 32 := by omega
        have hwhere : maxpath + argvStrLen * k + argvStrLen ≤ 2176 := by
          unfold maxpath argvStrLen
          omega
        rcases Nat.lt_succ_iff_lt_or_eq.mp hk with hki | rfl
        · refine (hdone k hki).mono fun b hb => (hfill _ (by omega)).trans (hbytes _ (by omega) (.inl ?_))
          have hstep : argvStrLen * k + argvStrLen ≤ argvStrLen * i := Nat.mul_le_mul_left argvStrLen hki
          omega
        · obtain ⟨bs, hshort, hspells, hcopy⟩ := hend
          exact ⟨bs, hshort, hspells, hcopy.congr fun b hb => congrArg some (hfill _ (by omega))⟩

/-- **The strings of the page**, as `exec` gets them. -/
def pageArgs (f : Fin 512 → Word) (argc : ℕ) : List (List Byte) :=
  (List.range argc).map fun k => cString f (maxpath + argvStrLen * k) argvStrLen

/-- There is room for the strings. -/
def Fits (args : List (List Byte)) : Prop :=
  args.length < argvn ∧ ∀ bs ∈ args, bs.length < argvStrLen

/-- The array does not end before the first `NULL`. -/
theorem UserArgv.le_length {ptr : ℕ → Word} {args : List (List Byte)} (h : UserArgv m r uva ptr args)
    (hnot : ∀ k < i, ¬UserWord m r (uva + BitVec.ofNat 64 (8 * k)) 0) : i ≤ args.length :=
  Nat.le_of_not_lt fun hlt => hnot _ hlt h.null

/-- Every word up to the `NULL` can be read. -/
theorem UserArgv.readable {ptr : ℕ → Word} {args : List (List Byte)} (h : UserArgv m r uva ptr args)
    (hi : i ≤ args.length) : ∃ w, UserWord m r (uva + BitVec.ofNat 64 (8 * i)) w := by
  rcases hi.lt_or_eq with hlt | rfl
  · exact ⟨_, (h.pointer i hlt).1⟩
  · exact ⟨0, h.null⟩

/-- **`copy_in_argv`** copies an array that fits, and fails for every other. -/
theorem copyInArgv_spec {argvUva : Word} (h : Scratch m l r page)
    (hzero : ∀ k < argvn, m.cell page (argvIndex k) = 0) :
    wp (copyInArgv r argvUva page) (fun ret m' => Only page m m' ∧
      (∀ k < maxpath, byteAt (m'.cell page) k = byteAt (m.cell page) k) ∧
      match ret with
      | none => ∀ ptr args, UserArgv m r argvUva ptr args → ¬Fits args
      | some argc => argc < argvn ∧ ∃ ptr, UserArgv m r argvUva ptr (pageArgs (m'.cell page) argc) ∧
          ∀ k < argc, Stored m r (ptr k) page m' k) E m := by
  unfold copyInArgv
  rw [wp_bind]
  refine wp_post (copyInPointers_spec h (Nat.zero_add _) .refl (fun _ _ => rfl)
    (fun k hk => absurd hk (Nat.not_lt_zero k)) fun k _ hk => hzero k hk) ?_
  rintro (_ | argc) m₁ ⟨hm₁, hlow₁, hpost⟩
  · obtain ⟨i, hi, hnot, hunread⟩ := hpost
    refine ⟨hm₁, fun k hk => hlow₁ k (hk.trans (by decide)), fun ptr args hargv _ => ?_⟩
    obtain ⟨w, hw⟩ := hargv.readable (hargv.le_length hnot)
    exact hunread w hw
  obtain ⟨hptr, hlast⟩ := hpost
  have hpath₁ : ∀ k < maxpath, byteAt (m₁.cell page) k = byteAt (m.cell page) k := fun k hk =>
    hlow₁ k (hk.trans (by decide))
  simp only
  rw [wp_bind, wp_inspect]
  split
  · next hend =>
    obtain ⟨-, hnot⟩ := hlast.resolve_left fun hbad => hend hbad.2.2
    exact ⟨hm₁, hpath₁, fun ptr args hargv hfits => hnot _ hfits.1 hargv.null⟩
  next hend =>
  obtain ⟨hargc, hnull, -⟩ := hlast.resolve_right fun hbad => hend hbad.1
  rw [wp_bind]
  refine wp_post (copyInStrings_spec (fun k => m₁.cell page (argvIndex k)) h hargc (Nat.zero_add _)
    hm₁ hpath₁ (fun _ _ _ => rfl) fun k hk => absurd hk (Nat.not_lt_zero k)) ?_
  rintro (_ | _) m₂ ⟨hm₂, hpath₂, hstored⟩
  · refine ⟨hm₂, hpath₂, ?_⟩
    have hlen : (pageArgs (m₂.cell page) argc).length = argc := by simp [pageArgs]
    refine ⟨hargc, _, ⟨fun k hk => hptr k (hlen ▸ hk), hlen.symm ▸ hnull, fun k hk => ?_⟩, hstored⟩
    obtain ⟨bs, hshort, hspells, hslot⟩ := hstored k (hlen ▸ hk)
    have hget : (pageArgs (m₂.cell page) argc)[k] = bs := by
      simp only [pageArgs, List.getElem_map, List.getElem_range]
      exact hslot.cString_eq hshort
    rw [hget]
    exact hspells
  · obtain ⟨k, hk, hlong⟩ := hstored
    refine ⟨hm₂, hpath₂, fun ptr args hargv hfits => ?_⟩
    have hlen : argc ≤ args.length := hargv.le_length fun i hi hzero =>
      (hptr i hi).2 ((hptr i hi).1.unique hzero)
    have hin : k < args.length := hk.trans_le hlen
    have hsame : ptr k = m₁.cell page (argvIndex k) := (hargv.pointer k hin).1.unique (hptr k hk).1
    exact hlong _ (hfits.2 _ (List.getElem_mem hin)) (hsame ▸ hargv.string k hin)

end Pmem

import Myv6.Pmem.Syscall

/-!
# Pmem/Argv — `argv` on its way through `exec`

    user pointers ──▸ slots of the scratch page ──▸ offsets in the argv page ──▸ user pointers
                      128 + 64·i                    8·(argc + 1) + 64·i          mem_end + …

The argv page belongs to the new table from `map_argv_to_page_table` on, so nothing that `exec` still
does touches it; what user code then reads there is what it had handed over.
-/

namespace Pmem

open Function (update)
open Bytes Hoare Loader Own Vm
open Process (ProcId)

variable {m m' : Mem} {l l' : List Word} {r t p page uva base memEnd tf us w : Word} {R : Word → ℕ}
  {argc k i n q off v : ℕ} {strInArgv : ℕ → Byte} {f g : Fin 512 → Word} {E : Panic → Prop}

/-! ## The page -/

/-- **The pointers are moved**: those before the first 0, and nothing else. -/
theorem relocate_eq (hn : n < 512) : ∀ {k i : ℕ} {f : Fin 512 → Word}, i ≤ n → n < i + k →
    f (Fin.ofNat 512 n) = 0 → (∀ j, i ≤ j → j < n → f (Fin.ofNat 512 j) ≠ 0) →
    relocate uva k i f = fun j : Fin 512 => if i ≤ (j : ℕ) ∧ (j : ℕ) < n then uva + f j else f j
  | 0, i, f, hi, hk, _, _ => absurd hk (by omega)
  | k + 1, i, f, hi, hk, hend, hne => by
    rcases hi.lt_or_eq with hlt | rfl
    · have hidx : (Fin.ofNat 512 i : ℕ) = i := Nat.mod_eq_of_lt (by omega)
      have hother : ∀ j, i < j → j ≤ n → Fin.ofNat 512 j ≠ Fin.ofNat 512 i := by
        intro j hij hj heq
        have hval := congrArg Fin.val heq
        rw [hidx, Fin.val_ofNat, Nat.mod_eq_of_lt (by omega)] at hval
        omega
      rw [relocate, if_neg (hne i le_rfl hlt), relocate_eq hn (by omega) (by omega)]
      · funext j
        by_cases hj : j = Fin.ofNat 512 i
        · subst hj
          rw [Function.update_self, if_neg (by rw [hidx]; omega), if_pos (by rw [hidx]; omega)]
        · have hji : (j : ℕ) ≠ i := fun heq => hj (Fin.ext (heq.trans hidx.symm))
          rw [Function.update_of_ne hj]
          by_cases hin : i ≤ (j : ℕ) ∧ (j : ℕ) < n
          · rw [if_pos ⟨by omega, hin.2⟩, if_pos hin]
          · rw [if_neg (by omega), if_neg hin]
      · rw [Function.update_of_ne (hother n hlt le_rfl)]
        exact hend
      · intro j hij hj
        rw [Function.update_of_ne (hother j hij hj.le)]
        exact hne j (by omega) hj
    · rw [relocate, if_pos hend]
      funext j
      rw [if_neg (by omega)]

/-- The pointers of the argv page, before and after they are moved. -/
theorem argvPageOf_pointer (hi : i < argc) (hargc : argc < argvn) :
    argvPageOf argc strInArgv f (Fin.ofNat 512 i) = BitVec.ofNat 64 (strStart argc + argvStrLen * i) := by
  have hargc : argc < 32 := hargc
  have hidx : (Fin.ofNat 512 i : ℕ) = i := Nat.mod_eq_of_lt (by omega)
  rw [argvPageOf, hidx, if_pos hi]

theorem argvPageOf_null (hargc : argc < argvn) : argvPageOf argc strInArgv f (Fin.ofNat 512 argc) = 0 := by
  have hargc : argc < 32 := hargc
  have hidx : (Fin.ofNat 512 argc : ℕ) = argc := Nat.mod_eq_of_lt (by omega)
  rw [argvPageOf, hidx, if_neg (Nat.lt_irrefl _), if_pos rfl]

/-- The offsets fit in the page. -/
theorem strStart_le (hi : i < argc) (hargc : argc < argvn) :
    strStart argc + argvStrLen * i + argvStrLen ≤ 2240 := by
  have hargc : argc < 32 := hargc
  unfold strStart argvStrLen
  omega

/-- **The argv page, its pointers moved**: `argc` pointers, a `NULL`, and the strings. -/
structure Relocated (base : Word) (argc : ℕ) (strInArgv : ℕ → Byte) (g : Fin 512 → Word) : Prop where
  pointer : ∀ i < argc, g (Fin.ofNat 512 i) = base + BitVec.ofNat 64 (strStart argc + argvStrLen * i)
  null : g (Fin.ofNat 512 argc) = 0
  string : ∀ k < argvStrLen * argc, byteAt g (strStart argc + k) = strInArgv k

theorem relocated_argvPageOf (hargc : argc < argvn) :
    Relocated base argc strInArgv (relocate base 512 0 (argvPageOf argc strInArgv f)) := by
  have hlt : argc < 32 := hargc
  have heq : relocate base 512 0 (argvPageOf argc strInArgv f) = _ :=
    relocate_eq (by omega) (Nat.zero_le _) (by omega) (argvPageOf_null hargc) fun j _ hj => by
      have hle := strStart_le hj hargc
      have hpos : 0 < strStart argc := Nat.mul_pos (by decide) (Nat.succ_pos _)
      rw [argvPageOf_pointer hj hargc]
      intro hzero
      have hnat := congrArg BitVec.toNat hzero
      rw [BitVec.toNat_ofNat, Nat.mod_eq_of_lt (by omega)] at hnat
      have hnat : strStart argc + argvStrLen * j = 0 := hnat
      omega
  rw [heq]
  refine ⟨fun i hi => ?_, ?_, fun k hk => ?_⟩
  · have hidx : (Fin.ofNat 512 i : ℕ) = i := Nat.mod_eq_of_lt (by omega)
    rw [if_pos ⟨Nat.zero_le _, hidx.symm ▸ hi⟩, argvPageOf_pointer hi hargc]
  · have hidx : (Fin.ofNat 512 argc : ℕ) = argc := Nat.mod_eq_of_lt (by omega)
    rw [if_neg (by rw [hidx]; omega), argvPageOf_null hargc]
  · have hbound : strStart argc + argvStrLen * argc ≤ 4096 := by
      unfold strStart argvStrLen
      omega
    have hword : argc < (strStart argc + k) / 8 := by
      unfold strStart
      omega
    have hidx : (Fin.ofNat 512 ((strStart argc + k) / 8) : ℕ) = (strStart argc + k) / 8 :=
      Nat.mod_eq_of_lt (by omega)
    have hpoke : byteAt (poke f (strStart argc) ((List.range (argvStrLen * argc)).map strInArgv))
        (strStart argc + k) = strInArgv k := by
      rw [byteAt_poke (by omega), List.length_map, List.length_range, if_pos (by omega), Nat.add_sub_cancel_left]
      simp [hk]
    rw [← hpoke]
    unfold byteAt
    dsimp only
    rw [if_neg (by rw [hidx]; omega), argvPageOf, if_neg (by rw [hidx]; omega), if_neg (by rw [hidx]; omega)]

/-! ## The page in the new table -/

/-- The argv page is mapped at the end of the image, with its pointers moved. -/
def Mapped (m : Mem) (t base p : Word) (f : Fin 512 → Word) : Prop :=
  pages m t (vpn base) = some (makePte p (pteR ||| pteW ||| pteU ||| pteV)) ∧
    m.cell p = relocate base 512 0 f

/-- **What only other pages see** leaves the argv page in its table. -/
theorem Mapped.frame (h : Mapped m t base p f) (hp : m'.cell p = m.cell p) (hpages : pages m' t = pages m t) :
    Mapped m' t base p f := by
  unfold Mapped
  rw [hpages, hp]
  exact h

/-- `alloc_page_copy_argv` fills the page. -/
theorem allocPageCopyArgv_content : wp (allocPageCopyArgv argc strInArgv)
    (fun ret m' => ∀ p, ret = some p → ∃ f, m'.cell p = argvPageOf argc strInArgv f) (fun _ => True) m := by
  unfold allocPageCopyArgv
  rw [wp_bind]
  refine wp_mono wp_true ?_ fun _ _ => trivial
  rintro (_ | page) m₁ -
  · exact fun p hp => nomatch hp
  · rw [wp_bind, wp_alter, wp_pure]
    rintro _ ⟨⟩
    exact ⟨_, Mem.fill_cell_self⟩

/-- An error exit has no table. -/
theorem buildErr_none {Q : Option (Word × Word) → Mem → Prop} (hQ : ∀ m', Q none m') :
    wp (buildErr t memEnd) Q (fun _ => True) m := by
  unfold buildErr
  rw [wp_bind]
  exact wp_mono wp_true (fun _ m' _ => hQ m') fun _ _ => trivial

/-- **The end of the new table.** -/
theorem finishTable_argv (h : Holds userPages m l t (fun q => R q + one p q)) (hpage : m.image.IsPage p) :
    wp (finishTable t memEnd tf us (some p))
      (fun ret m' => ∀ t' e, ret = some (t', e) → t' = t ∧ Mapped m' t memEnd p (m.cell p))
      (fun _ => True) m := by
  have hnone : ∀ (m' : Mem) (t' e : Word), (none : Option (Word × Word)) = some (t', e) →
      t' = t ∧ Mapped m' t memEnd p (m.cell p) := fun _ _ _ hte => nomatch hte
  have hone : 0 < R p + one p p := by
    rw [one_self]
    exact Nat.succ_pos _
  unfold finishTable
  rw [wp_bind]
  refine wp_mono (mapTop_spec h) ?_ fun _ _ => trivial
  rintro (_ | _) m₁ ⟨l₁, hholds₁, hmoves₁, -⟩
  swap
  · rw [if_pos rfl]
    exact buildErr_none (fun m' => hnone m')
  have hcell₁ : m₁.cell p = m.cell p := h.kept hmoves₁ hone
  rw [if_neg (by decide)]
  dsimp only
  unfold mapArgvToPageTable
  simp only [wp_bind]
  refine wp_mono (mapPage_spec hholds₁.free hholds₁.tables_once) ?_ fun _ _ => trivial
  rintro (_ | _) m₂ hpost
  swap
  · rw [if_pos rfl, wp_pure, if_pos rfl]
    exact buildErr_none (fun m' => hnone m')
  obtain ⟨-, -, l₂, hmoves₂, hpages₂, -⟩ := hpost
  have honce : ∀ q, l₁.count q + tables m₁ t q + (R q + one p q) ≤ 1 := by
    intro q
    have hq := hholds₁.once q
    unfold space at hq
    omega
  have hcell₂ : m₂.cell p = m₁.cell p :=
    hmoves₂.kept (R := fun q => R q + one p q) (honce p) hone
  have htable : ∀ q, 0 < tables m₂ t q → (m₂.fill p (relocate memEnd 512 0 (m₂.cell p))).cell q = m₂.cell q := by
    intro q hq
    refine Mem.fill_cell_ne ?_
    rintro rfl
    have hsame := hmoves₂.same q
    have hq₁ := honce q
    omega
  rw [if_neg (by decide), wp_bind, wp_alter, wp_pure, if_neg (by decide), wp_pure]
  rintro t' e ⟨⟩
  refine ⟨rfl, ?_, ?_⟩
  · rw [(table_congr htable).2.2, hpages₂, Function.update_self]
  · rw [Mem.fill_cell_self, hcell₂, hcell₁]

/-- **The new table.** -/
theorem buildTable_argv {inode : Inode} (hfree : FreeList m l)
    (honce : ∀ q, l.count q + (R q + one p q) ≤ 1) (hpage : m.image.IsPage p) :
    wp (buildTable inode tf us (some p)) (fun ret s => ∀ t e, ret = some (t, e) →
      Mapped s.mem t (imageMemEnd inode.file) p (m.cell p)) (fun _ => True) { mem := m, short := [] } := by
  have hone : 0 < R p + one p p := by
    rw [one_self]
    exact Nat.succ_pos _
  unfold buildTable
  rw [wp_bind, wp_inMem]
  refine wp_mono (getPagetable_holds (S := allPages) (E := fun _ => True) hfree honce) ?_ fun _ _ => trivial
  rintro (_ | t) m₁ hpost
  · exact fun t e hte => nomatch hte
  obtain ⟨l₁, hholds₁, hmoves₁, hnone₁, -⟩ := hpost
  have hcell₁ : m₁.cell p = m.cell p :=
    hmoves₁.kept (R := fun q => R q + one p q) (by have hp := honce p; rw [Pi.zero_apply]; omega) hone
  dsimp only
  split
  · rw [wp_bind]
    exact wp_mono wp_true (fun _ _ _ t e hte => nomatch hte) fun _ _ => trivial
  rw [wp_bind]
  refine wp_mono (loadProcessElf_spec hholds₁ hnone₁) ?_ fun _ _ => trivial
  rintro (_ | e) s hpost
  · dsimp only
    rw [wp_bind]
    exact wp_mono wp_true (fun _ _ _ t e hte => nomatch hte) fun _ _ => trivial
  obtain ⟨-, rfl, hloaded⟩ := hpost
  obtain ⟨l₂, hholds₂, hmoves₂, -⟩ := hloaded.laid
  have hcell₂ : s.mem.cell p = m₁.cell p := hmoves₂.kept (R := fun q => R q + one p q) (hholds₁.once p) hone
  have himage := hmoves₂.image.trans hmoves₁.image
  rw [wp_inMem]
  refine wp_mono (finishTable_argv (below hholds₂) (himage ▸ hpage)) ?_ fun _ _ => trivial
  intro ret m' hmapped t' e hret
  obtain ⟨rfl, hmapped⟩ := hmapped t' e hret
  rw [← hcell₁, ← hcell₂]
  exact hmapped

section Exec

variable {s s' s₁ s₂ : Sys} {j : ProcId} {disk : Disk} {path : List Byte} {K : Word → ℕ} {ip : ℕ} {inode : Inode}

/-- The page that a user entry of the table maps is the table's. -/
theorem Mapped.held (h : Mapped m t base p f) (hpage : m.image.IsPage p) (hv : vpn base < 67108861) :
    0 < held (pages m t) userPages p := by
  have hheld := frame_held (S := userPages) h.1 (mem_userPages_iff.mpr hv)
  rwa [pteGetPa_makePte hpage.isFrame] at hheld

/-- **`load_new_process_for_exec`** leaves the argv page in the table of the process. -/
theorem loadNewProcessForExec_argv
    (h : Holds userPages s.mem l (s.proc j).pgtable (fun q => K q + one p q))
    (hpage : s.mem.image.IsPage p) (hend : EndsAt (s.proc j).memEnd n) :
    wp (loadNewProcessForExec j inode (some p)) (fun err s' => err = false →
      Mapped s'.mem (s'.proc j).pgtable (imageMemEnd inode.file) p (s.mem.cell p)) (fun _ => True) s := by
  have honce : ∀ q, l.count q +
      (K q + space userPages s.mem (s.proc j).pgtable q + one p q) ≤ 1 := by
    intro q
    have hq := h.once q
    omega
  have hhand : ∀ q, l.count q +
      (K q + space userPages s.mem (s.proc j).pgtable q + argvHand (some p) q) ≤ 1 := honce
  unfold loadNewProcessForExec
  rw [wp_bind, wp_inspect, wp_bind, wp_onLoad]
  refine wp_mono (wp_and (buildTable_spec h.free hhand
    fun q hq => Option.some.inj hq ▸ hpage) (buildTable_argv h.free honce hpage)) ?_ fun _ _ => trivial
  rintro (_ | ⟨t, e⟩) ⟨m₁, short⟩ ⟨hpost, hmapped⟩
  · exact fun herr => nomatch herr
  obtain ⟨-, -, hlow, l₁, hholds₁, hmoves₁, -⟩ := hpost
  have hmapped := hmapped t e rfl
  dsimp only at hholds₁ hmoves₁ hmapped
  have hold : ∀ q, l.count q + argvHand (some p) q + tables s.mem (s.proc j).pgtable q ≤ 1 := by
    intro q
    have hq := honce q
    unfold space at hq
    rw [argvHand_some]
    omega
  have hspace := hmoves₁.space (S := userPages) hold
  have hholds₂ : Holds userPages m₁ l₁ (s.proc j).pgtable (fun q => K q + space userPages m₁ t q) := by
    refine ⟨hholds₁.free, fun q => ?_, fun q hq => ?_⟩
    · have hq := hholds₁.once q
      rw [hspace]
      omega
    · rw [hspace] at hq
      exact hmoves₁.image ▸ h.page q hq
  have hheld := hmapped.held (hmoves₁.image ▸ hpage) (hlow rfl)
  rw [wp_bind, wp_onMem]
  refine wp_mono (freeTable_spec hholds₂ hend) ?_ fun _ _ => trivial
  rintro _ m₂ ⟨l₂, hmoves₂⟩
  dsimp only at hmoves₂
  have hnew : ∀ q, l₁.count q + space userPages m₁ (s.proc j).pgtable q + space userPages m₁ t q ≤ 1 := by
    intro q
    have hq := hholds₂.once q
    omega
  have htable : ∀ q, l₁.count q + space userPages m₁ (s.proc j).pgtable q + tables m₁ t q ≤ 1 := by
    intro q
    have hq := hnew q
    unfold space at hq ⊢
    omega
  rw [wp_bind, wp_setProc, wp_pure]
  rintro -
  dsimp only
  rw [Function.update_self]
  refine hmapped.frame (hmoves₂.kept (hnew p) ?_) (hmoves₂.table htable).2.2
  unfold space
  omega

/-- **`exec`** leaves the argv page in the table of the process, with the strings it was given. -/
theorem exec_argv (h : Holds userPages s.mem l (s.proc j).pgtable K) (htf : 0 < K (s.proc j).trapFrame)
    (hend : EndsAt (s.proc j).memEnd n) (hargc : argc ≠ 0) (hip : disk.namei path = some ip) :
    wp (exec disk j path argc strInArgv) (fun err s' => err = false → ∃ p f,
      s.mem.image.IsPage p ∧ K p = 0 ∧
      Mapped s'.mem (s'.proc j).pgtable (imageMemEnd (disk.inode ip).file) p (argvPageOf argc strInArgv f))
      (fun _ => True) s := by
  unfold exec
  rw [hip]
  dsimp only
  unfold iget
  rw [wp_bind, wp_alter, if_neg hargc, wp_bind, wp_onMem]
  refine wp_mono (wp_and (allocPageCopyArgv_spec (E := fun _ => True) h)
    allocPageCopyArgv_content) ?_ fun _ _ => trivial
  rintro (_ | p) m₁ ⟨hpost, hcontent⟩
  · dsimp only
    rw [wp_bind]
    exact wp_mono wp_true (fun _ _ _ herr => nomatch herr) fun _ _ => trivial
  obtain ⟨hpage, -, l₁, hmoves₁, -⟩ := hpost
  obtain ⟨f, hf⟩ := hcontent p rfl
  dsimp only at hpage hmoves₁
  have hK : K p = 0 := by
    have hp := h.once p
    have hsame := hmoves₁.same p
    rw [one_self, Pi.zero_apply] at hsame
    omega
  have honce : ∀ q, l.count q + (0 : Word → ℕ) q + tables s.mem (s.proc j).pgtable q ≤ 1 := h.tables_once
  have hspace := hmoves₁.space (S := userPages) honce
  have hholds : Holds userPages m₁ l₁ (s.proc j).pgtable (fun q => K q + one p q) := by
    refine ⟨hmoves₁.free, fun q => ?_, fun q hq => ?_⟩
    · have hq := h.once q
      have hsame := hmoves₁.same q
      rw [Pi.zero_apply] at hsame
      rw [hspace]
      omega
    · rw [hspace] at hq
      exact hmoves₁.image ▸ h.page q hq
  have hhand : Holds userPages m₁ l₁ (s.proc j).pgtable (fun q => K q + argvHand (some p) q) := hholds
  have hpage₁ : m₁.image.IsPage p := hmoves₁.image ▸ hpage
  dsimp only
  unfold execLoad
  rw [wp_bind]
  refine wp_mono (wp_and
    (loadNewProcessForExec_spec hhand (fun q hq => Option.some.inj hq ▸ hpage₁) hend)
    (loadNewProcessForExec_argv hholds hpage₁ hend)) ?_ fun _ _ => trivial
  rintro (_ | _) s₂ ⟨hpost, hmapped⟩
  swap
  · unfold iput
    rw [wp_bind, wp_alter, if_pos rfl, wp_bind]
    exact wp_mono wp_true (fun _ _ _ herr => nomatch herr) fun _ _ => trivial
  obtain ⟨-, t, e, -, hlow, hs₂, l₂, hholds₂, hmoves₂, -⟩ := hpost
  have hmapped := hmapped rfl
  have hproc : s₂.proc j = (s.proc j).loaded t e := by
    rw [hs₂]
    exact Function.update_self ..
  unfold iput
  rw [wp_bind, wp_alter, if_neg (by decide), wp_bind, wp_inspect, wp_bind, wp_onMem, wp_alter, wp_pure]
  dsimp only
  rw [hproc] at hmapped ⊢
  rintro -
  have hheld := hmapped.held (hmoves₂.image ▸ hpage₁) (hlow rfl)
  have htfOne := hholds₂.once (s.proc j).trapFrame
  have hne : p ≠ (s.proc j).trapFrame := by
    rintro rfl
    unfold space at htfOne
    have hheld : 0 < Vm.held (pages s₂.mem t) userPages (s.proc j).trapFrame := hheld
    omega
  refine ⟨p, f, hpage, hK, hf ▸ hmapped.frame (Mem.fill_cell_ne hne) ?_⟩
  refine (table_congr fun q hq => Mem.fill_cell_ne ?_).2.2
  rintro rfl
  have hq : 0 < tables s₂.mem t (s.proc j).trapFrame := hq
  unfold space at htfOne
  omega

/-! ## What the new program finds -/

/-- **`argc` strings in the page below `mem_end`**: their number in `a0`, the address of the array in
`a1`. -/
structure HandedOver (s' : Sys) (j : ProcId) (args : List (List Byte)) (base page : Word) (ptr : ℕ → Word) :
    Prop where
  a0 : s'.mem.cell (s'.proc j).trapFrame tfA0 = BitVec.ofNat 64 args.length
  a1 : s'.mem.cell (s'.proc j).trapFrame tfA1 = base
  below : base = (s'.proc j).memEnd - pgsize ∧ base.toNat % 4096 = 0
  mapped : userPage s'.mem (s'.proc j).pgtable (vpn base) = some page
  argv : UserArgv s'.mem (s'.proc j).pgtable base ptr args
  inside : ∀ i (hi : i < args.length), base.toNat + 8 * (args.length + 1) ≤ (ptr i).toNat ∧
    (ptr i).toNat + args[i].length < base.toNat + 4096

/-- The strings of the page fit, and are those of the caller. -/
theorem Prepared.strings {ptr : ℕ → Word} {args : List (List Byte)}
    (hprep : Prepared s l j (some (page, some argc)) s₁)
    (huser : UserArgv s.mem (s.proc j).pgtable (argvUva s j) ptr args) :
    args.length = argc ∧ Fits args ∧ ∀ i (hi : i < args.length),
      Spells (fun b => some (byteAt (s₁.mem.cell page) (maxpath + (argvStrLen * i + b)))) args[i] := by
  obtain ⟨-, -, -, -, -, hargc, ptr', huser', hstored⟩ := hprep
  have hargs := huser'.unique huser
  have hlen : args.length = argc := by
    rw [← hargs]
    simp [pageArgs]
  have hslot : ∀ i (hi : i < args.length), args[i].length < argvStrLen ∧
      Spells (fun b => some (byteAt (s₁.mem.cell page) (maxpath + (argvStrLen * i + b)))) args[i] := by
    intro i hi
    obtain ⟨bs, hlt, hspells, hslot⟩ := hstored i (hlen ▸ hi)
    have hptr : ptr' i = ptr i :=
      (huser'.pointer i (hargs.symm ▸ hi)).1.unique (huser.pointer i hi).1
    have hbs : args[i] = bs := (huser.string i hi).unique (hptr ▸ hspells)
    rw [hbs]
    exact ⟨hlt, hslot.congr fun b _ => by rw [Nat.add_assoc]⟩
  refine ⟨hlen, ⟨hlen ▸ hargc, fun bs hbs => ?_⟩, fun i hi => (hslot i hi).2⟩
  obtain ⟨i, hi, rfl⟩ := List.getElem_of_mem hbs
  exact (hslot i hi).1

/-- **What user code reads in the argv page.** -/
theorem Mapped.userArgv {args : List (List Byte)} {f₀ : Fin 512 → Word}
    (h : Mapped m t base p (argvPageOf args.length strInArgv f₀)) (hpage : m.image.IsPage p)
    (hend : EndsAt base v) (hfits : Fits args)
    (hslot : ∀ i (hi : i < args.length),
      Spells (fun b => some (strInArgv (argvStrLen * i + b))) args[i]) :
    userPage m t (vpn base) = some p ∧
    UserArgv m t base (fun i => base + BitVec.ofNat 64 (strStart args.length + argvStrLen * i)) args ∧
    ∀ i (hi : i < args.length),
      base.toNat + 8 * (args.length + 1) ≤
        (base + BitVec.ofNat 64 (strStart args.length + argvStrLen * i)).toNat ∧
      (base + BitVec.ofNat 64 (strStart args.length + argvStrLen * i)).toNat + args[i].length <
        base.toNat + 4096 := by
  obtain ⟨hmap, hcell⟩ := h
  obtain ⟨hargc, hlen⟩ := hfits
  have hle := hend.le
  have hpos := hend.pos
  have heq := hend.eq
  have hal : base.toNat % 4096 = 0 := by
    rw [heq]
    exact Nat.mul_mod_left v 4096
  have huser : userPage m t (vpn base) = some p := by
    rw [userPage, hmap, Option.bind_some, pteGetAttribute_makePte,
      pteGetPa_makePte hpage.isFrame, if_neg (by decide)]
  have hreloc : Relocated base args.length strInArgv (m.cell p) := by
    rw [hcell]
    exact relocated_argvPageOf hargc
  have hlt : args.length < 32 := hargc
  have haddr : ∀ i < args.length,
      (base + BitVec.ofNat 64 (strStart args.length + argvStrLen * i)).toNat =
        base.toNat + (strStart args.length + argvStrLen * i) := by
    intro i hi
    have hin := strStart_le hi hargc
    rw [BitVec.toNat_add, BitVec.toNat_ofNat]
    omega
  refine ⟨huser, ⟨fun i hi => ⟨?_, fun hzero => ?_⟩, ?_, fun i hi => ?_⟩, fun i hi => ?_⟩
  · have hword := userWord_of_page huser hal (q := i) (by omega)
    rwa [hreloc.pointer i hi] at hword
  · have hnat := congrArg BitVec.toNat hzero
    rw [haddr i hi] at hnat
    have hnat : base.toNat + (strStart args.length + argvStrLen * i) = 0 := hnat
    omega
  · have hword := userWord_of_page huser hal (q := args.length) (by omega)
    rwa [hreloc.null] at hword
  · have hin := strStart_le hi hargc
    have hshort := hlen _ (List.getElem_mem hi)
    refine (hslot i hi).congr fun b hb => ?_
    have hblock : argvStrLen * i + argvStrLen ≤ argvStrLen * args.length := Nat.mul_le_mul_left argvStrLen hi
    rw [userChar_of_page huser hal (by omega), Nat.add_assoc, hreloc.string _ (by omega)]
  · have hin := strStart_le hi hargc
    have hshort := hlen _ (List.getElem_mem hi)
    rw [haddr i hi]
    unfold strStart at hin ⊢
    omega

/-- A call of `exec` that has succeeded. -/
theorem execCall_handsOver {ptr : ℕ → Word} {args : List (List Byte)} (h : Settled s l j n)
    (hpos : 1 ≤ args.length) (huser : UserArgv s.mem (s.proc j).pgtable (argvUva s j) ptr args)
    (hprep : execPrepare j s = .ok (some (page, some argc), s₁))
    (hcall : execCall disk j page (some argc) s₁ = .ok (false, s₂)) :
    ∃ s' base p ptr', handleSyscall j (syscallExec disk) s = .ok ((), s') ∧
      HandedOver s' j args base p ptr' := by
  have hprepared := (execPrepare_spec (E := fun _ => True) h).ok hprep
  obtain ⟨l₂, hcalled, -⟩ := execCall_called h hprepared hcall
  obtain ⟨s', hrun, hs', htf, hcells, himage⟩ := handleSyscall_returns hprepared.2.1 hprep hcall hcalled
  obtain ⟨rfl, hfits, hslot⟩ := hprepared.strings huser
  obtain ⟨l₁, hholds, hmoves, hs₁, -, hpost⟩ := execCall_execed h hprepared hcall
  have hproc : s₁.proc j = s.proc j := by rw [hs₁]
  have hne : args.length ≠ 0 := by omega
  obtain ⟨ip, hip, hbuild, t, e, he, hlow, hs₂, hregs, l₂', hholds₂, hmoves₂, -⟩ := hpost
  obtain rfl := hcalled.free.unique hholds₂.free
  have hbeside : 0 < (s₁.proc j).beside (s₁.proc j).trapFrame := (s₁.proc j).beside_trapFrame
  have hargv : wp (exec disk j (cString (s₁.mem.cell page) 0 maxpath) args.length fun k =>
      byteAt (s₁.mem.cell page) (maxpath + k)) _ (fun _ => True) s₁ :=
    exec_argv hholds (Nat.lt_of_lt_of_le (hproc ▸ hbeside) (Nat.le_add_right _ _)) (hproc ▸ h.ends) hne hip
  obtain ⟨p, f, hpage, hK, hmapped⟩ := hargv.ok hcall rfl
  have hproc₂ : s₂.proc j = (s.proc j).loaded t e := by
    rw [hs₂, ← hproc]
    exact Function.update_self ..
  have hproc' : s'.proc j = (s.proc j).loaded t e := by
    rw [hs', ← hproc₂]
  rw [hproc₂] at hmapped
  have hpage₂ : s₂.mem.image.IsPage p := hmoves₂.image ▸ hpage
  have hend := endsAt_imageMemEnd hbuild.fetch
  have hheld := hmapped.held hpage₂ (hlow hne)
  -- nothing of the new table is written any more
  have hkept : ∀ q, 0 < space userPages s₂.mem t q → s'.mem.cell q = s₂.mem.cell q := by
    intro q hq
    have hone := hholds₂.once q
    dsimp only at hone
    refine hcells q (by omega) ?_ ?_
    · rintro rfl
      rw [one_self] at hone
      omega
    · rintro rfl
      have htfOwned := (s.proc j).beside_trapFrame
      omega
  have hpages : pages s'.mem t = pages s₂.mem t := by
    refine (table_congr fun q hq => hkept q ?_).2.2
    exact Nat.lt_of_lt_of_le hq (Nat.le_add_right _ _)
  have hmapped' : Mapped s'.mem t (imageMemEnd (disk.inode ip).file) p
      (argvPageOf args.length (fun k => byteAt (s₁.mem.cell page) (maxpath + k)) f) :=
    hmapped.frame (hkept p (Nat.lt_of_lt_of_le hheld (Nat.le_add_left _ _))) hpages
  obtain ⟨huser', hargs, hinside⟩ := hmapped'.userArgv (himage ▸ hpage₂) hend hfits hslot
  have he' : e - pgsize = imageMemEnd (disk.inode ip).file := by
    rw [he]
    simp only [Option.getD_some, if_neg hne]
    exact BitVec.add_sub_cancel _ _
  refine ⟨s', imageMemEnd (disk.inode ip).file, p, _, hrun, ?_, ?_, ⟨?_, ?_⟩, ?_, ?_, hinside⟩
  · rw [hproc']
    change s'.mem.cell (s.proc j).trapFrame tfA0 = _
    rw [htf, Function.update_self]
    rw [hproc] at hregs
    simp only [Bool.and_false, Bool.false_eq_true, if_false, hregs]
    rfl
  · rw [hproc']
    change s'.mem.cell (s.proc j).trapFrame tfA1 = _
    rw [htf, Function.update_of_ne (by decide)]
    rw [hproc] at hregs
    rw [hregs, ← he']
    rfl
  · rw [hproc']
    exact he'.symm
  · rw [hend.eq]
    exact Nat.mul_mod_left _ 4096
  · rw [hproc']
    exact huser'
  · rw [hproc']
    exact hargs

/-! ## What does not fit -/

/-- **No `NULL` among the first `ARGVN` pointers, or a string that is too long** before the first one. -/
def Misfit (m : Mem) (r uva : Word) : Prop :=
  (∀ k < argvn, ¬UserWord m r (uva + BitVec.ofNat 64 (8 * k)) 0) ∨
    ∃ i w, (∀ k ≤ i, ¬UserWord m r (uva + BitVec.ofNat 64 (8 * k)) 0) ∧
      UserWord m r (uva + BitVec.ofNat 64 (8 * i)) w ∧
      ∀ bs : List Byte, Spells (userChar m r w) bs → argvStrLen ≤ bs.length

theorem Misfit.not_fits {ptr : ℕ → Word} {args : List (List Byte)} (h : Misfit m r uva)
    (huser : UserArgv m r uva ptr args) : ¬Fits args := by
  rintro ⟨hargc, hlen⟩
  rcases h with hnone | ⟨i, w, hnone, hword, hlong⟩
  · exact hnone _ hargc huser.null
  · have hi : i < args.length := huser.le_length fun k hk => hnone k (Nat.lt_succ_iff.mp hk)
    obtain rfl : ptr i = w := (huser.pointer i hi).1.unique hword
    have hshort := hlen _ (List.getElem_mem hi)
    have hge := hlong _ (huser.string i hi)
    omega

/-- **The process is as it was**, but for the `-1` in its `a0`; what was free is free again. -/
structure Refused (s s' : Sys) (l : List Word) (j : ProcId) : Prop where
  a0 : s'.mem.cell (s.proc j).trapFrame = update (s.mem.cell (s.proc j).trapFrame) tfA0 (-1)
  sys : s' = { s with mem := s'.mem }
  memory : ∀ q ∉ l, q ≠ (s.proc j).trapFrame → s'.mem.cell q = s.mem.cell q
  free : ∃ l', FreeList s'.mem l' ∧ ∀ q, q ∈ l' ↔ q ∈ l

/-- An array that does not fit is refused. -/
theorem misfit_refused (h : Settled s l j n) (hargv : argvUva s j ≠ 0)
    (hmisfit : Misfit s.mem (s.proc j).pgtable (argvUva s j)) :
    ∃ s', handleSyscall j (syscallExec disk) s = .ok ((), s') ∧ Refused s s' l j := by
  obtain ⟨ret, s₁, hrun, hprep⟩ := (execPrepare_spec (E := fun _ => False) h).ends
  match ret, hprep with
  | some (page, none), hprep => exact absurd hprep.2.2.2.2 hargv
  | some (page, some argc), hprep =>
    obtain ⟨-, -, -, -, -, -, ptr, huser, -⟩ := id hprep
    exact absurd (hprep.strings huser).2.1 (hmisfit.not_fits huser)
  | none, hprep =>
    obtain ⟨hs₁, ⟨l', hmoves⟩, -⟩ := hprep
    have hout : l.count (s.proc j).trapFrame = 0 := by
      have hone := h.holds.once (s.proc j).trapFrame
      have hbeside := (s.proc j).beside_trapFrame
      omega
    have hsame : ∀ q, l'.count q = l.count q := hmoves.same
    have hsys : syscallExec disk j s = .ok (-1, s₁) := by
      unfold syscallExec
      simp only [bind, StateT.bind, Except.bind, hrun]
      rfl
    have hhandle : handleSyscall j (syscallExec disk) s =
        .ok ((), { s₁ with mem := s₁.mem.write (s.proc j).trapFrame tfA0 (-1) }) := by
      unfold handleSyscall inspect
      simp only [bind, StateT.bind, Except.bind, hsys]
      rfl
    refine ⟨_, hhandle, ?_, ?_, fun q hq hne => ?_, l', ?_, fun q => ?_⟩
    · dsimp only
      rw [Mem.write_cell_self, hmoves.frame hout rfl]
    · rw [hs₁]
    · dsimp only
      rw [Mem.write_cell_ne hne]
      exact hmoves.frame (List.count_eq_zero.mpr hq) rfl
    · refine hmoves.free.congr rfl rfl fun q hq => Mem.write_cell_ne ?_
      rintro rfl
      have hin := List.count_pos_iff.mpr hq
      have hq' := hsame (s.proc j).trapFrame
      omega
    · rw [← List.count_pos_iff, hsame, List.count_pos_iff]

/-- **`argv` survives `exec`**: for every array of one to `ARGVN - 1` strings of fewer than `ARGV_STR_LEN`
bytes, once `exec` has succeeded user code finds their number in `a0`, and in `a1` the address of an array
of the same strings, all in the page below `mem_end`; an array without `NULL` among its first `ARGVN`
pointers or with a longer string is refused, and the process is as it was. -/
theorem argv_survives (h : Settled s l j n) :
    (∀ ptr args page argc s₁ s₂, 1 ≤ args.length → Fits args →
      UserArgv s.mem (s.proc j).pgtable (argvUva s j) ptr args →
      execPrepare j s = .ok (some (page, some argc), s₁) →
      execCall disk j page (some argc) s₁ = .ok (false, s₂) →
      ∃ s' base p ptr', handleSyscall j (syscallExec disk) s = .ok ((), s') ∧
        HandedOver s' j args base p ptr') ∧
    (argvUva s j ≠ 0 → Misfit s.mem (s.proc j).pgtable (argvUva s j) →
      ∃ s', handleSyscall j (syscallExec disk) s = .ok ((), s') ∧ Refused s s' l j) :=
  ⟨fun _ _ _ _ _ _ hpos _ huser hprep hcall => execCall_handsOver h hpos huser hprep hcall,
    fun hargv hmisfit => misfit_refused h hargv hmisfit⟩

end Exec

/-! ## A caller with one string -/

/-- A file of one segment. -/
@[irreducible] def onePageFile : File := smallFile [bss 0x1000 0x1000] []

/-- **Its table can be built**, and building it does not panic. -/
theorem onePageFile_buildable {a : ℕ} (ha : 6 ≤ a) :
    Buildable { isFile := true, file := onePageFile } true a ∧
      ∀ e, ¬TablePanic { isFile := true, file := onePageFile } true a e := by
  have hnum : numHeaders onePageFile = 1 := by decide +kernel
  have hsegs : segments onePageFile 1 = [bss 0x1000 0x1000] := by decide +kernel
  have hend : vpn (imageMemEnd onePageFile) = 2 := by decide +kernel
  have hprice : price onePageFile true = 6 := by decide +kernel
  have hcost : cost (fun _ => maxLevel) (imagePages (segments onePageFile 1)) ≤ 5 := by decide +kernel
  have hheader : HasHeader onePageFile := ⟨by decide +kernel, by decide +kernel⟩
  have hone : imageSegments onePageFile = [bss 0x1000 0x1000] := by rw [imageSegments, hnum, hsegs]
  have hcovers : ∀ w, (bss 0x1000 0x1000).Covers w ↔ w = 1 := by
    intro w
    have hvpn : vpn (bss 0x1000 0x1000).pVaddr = 1 := by decide
    have hpages : (bss 0x1000 0x1000).numPages = 1 := by decide +kernel
    unfold Elf64Phdr.Covers
    rw [hvpn, hpages]
    omega
  have hcovered : ∀ w, Covered onePageFile w ↔ w = 1 := by
    intro w
    unfold Covered
    rw [hone]
    constructor
    · rintro ⟨segment, hmem, hw⟩
      obtain rfl := List.mem_singleton.mp hmem
      exact (hcovers w).mp hw
    · exact fun hw => ⟨_, List.mem_singleton_self _, (hcovers w).mpr hw⟩
  have hfetch : Fetchable onePageFile (a - 1) 1 := by
    refine ⟨fun i hi => ?_, ?_, ?_, ?_, ?_, hcost.trans (by omega)⟩
    · obtain rfl : i = 0 := by omega
      decide +kernel
    all_goals rw [hsegs]
    · decide +kernel
    · intro segment hmem i hi
      obtain rfl := List.mem_singleton.mp hmem
      have hzero : (bss 0x1000 0x1000).filePages = 0 := by decide +kernel
      omega
    · decide +kernel
    · exact List.pairwise_singleton _ _
  refine ⟨⟨rfl, hheader, hnum ▸ hfetch, hprice ▸ ha⟩, ?_⟩
  rintro e ⟨-, -, ⟨-, i, hi, -, hover⟩ | ⟨-, ⟨-, ⟨w, hge, -, hw⟩ | ⟨-, hlast | hw⟩⟩ | ⟨-, hlt, -⟩⟩⟩
  · dsimp only at hi
    obtain rfl : i = 0 := by omega
    obtain ⟨-, b, hb, -⟩ := hover
    cases hb
  · rw [hcovered] at hw
    omega
  · dsimp only at hlast
    omega
  · rw [hcovered] at hw
    dsimp only at hw
    omega
  · dsimp only at hlt
    omega

/-- `argv` of the caller: a pointer to `"b"`, and `NULL`. -/
def oneStringStack (q : Fin 512) : Word :=
  if q = 0 then 0x61 else if q = 1 then ustackBase + 24 else if q = 3 then 0x62 else 0

theorem oneStringStack_argv {m : Mem} {l : List Word} {r : Word} (h : StackOnly m l r) :
    UserArgv (callerSys m r (ustackBase + 8) oneStringStack).mem r (ustackBase + 8)
      (fun _ => ustackBase + 24) [[0x62]] := by
  refine ⟨fun i hi => ⟨?_, by decide⟩, h.word _ _ (q := 2) (by decide), fun i hi => ?_⟩
  · obtain rfl : i = 0 := Nat.lt_one_iff.mp hi
    exact h.word _ _ (q := 1) (by decide)
  · obtain rfl : i = 0 := Nat.lt_one_iff.mp hi
    have hstring : Spells (userChar (callerSys m r (ustackBase + 8) oneStringStack).mem r (ustackBase + 24))
        [0x62] := by
      refine ⟨fun k hk => ?_, ?_, by decide⟩
      · obtain rfl : k = 0 := Nat.lt_one_iff.mp hk
        have hbyte : some (byteAt oneStringStack (24 + 0)) = some 0x62 := by decide
        exact (h.char _ _ (by decide : 24 + 0 < 4096)).trans hbyte
      · exact (h.char _ _ (by decide : 24 + 1 < 4096)).trans (by decide)
    exact hstring

/-- With pages enough, its `exec` succeeds. -/
theorem oneFile_succeeds {s s₁ : Sys} {j : ProcId} (h : Settled s l j 1) (hroom : 8 ≤ avail s.mem.deny l.length)
    (hpath : Spells (userChar s.mem (s.proc j).pgtable (fileUva s j)) [0x61]) (hargc : argc ≠ 0)
    (hprep : execPrepare j s = .ok (some (page, some argc), s₁)) :
    ∃ s₂, execCall (oneFile onePageFile) j page (some argc) s₁ = .ok (false, s₂) := by
  have hprepared := (execPrepare_spec (E := fun _ => True) h).ok hprep
  have hfile := hprepared.2.2.2.1.unique hpath
  obtain ⟨l₁, hholds, -, hs₁, havail⟩ := hprepared.holds h
  have hproc : s₁.proc j = s.proc j := by rw [hs₁]
  have htf : 0 < (s.proc j).beside (s₁.proc j).trapFrame + one page (s₁.proc j).trapFrame := by
    rw [hproc]
    exact Nat.lt_of_lt_of_le (s.proc j).beside_trapFrame (Nat.le_add_right _ _)
  have hargv : decide (argc ≠ 0) = true := decide_eq_true hargc
  have hroom₁ : 6 ≤ avail s₁.mem.deny l₁.length - if argc = 0 then 0 else 1 := by
    rw [if_neg hargc]
    omega
  obtain ⟨hbuild, hpanic⟩ := onePageFile_buildable hroom₁
  have hends : wp (exec (oneFile onePageFile) j (cString (s₁.mem.cell page) 0 maxpath) argc fun k =>
      byteAt (s₁.mem.cell page) (maxpath + k)) (Execed s₁ l₁ j (oneFile onePageFile)
      (cString (s₁.mem.cell page) 0 maxpath) argc 1 fun q => (s.proc j).beside q + one page q)
      (fun _ => False) s₁ := by
    refine wp_mono (exec_spec hholds htf (hproc ▸ h.ends)) (fun _ _ => id) ?_
    rintro e ⟨ip, -, htable | ⟨-, -, w, hw, -⟩⟩
    · rw [hargv] at htable
      exact hpanic e htable
    · omega
  obtain ⟨err, s₂, hrun, hpost⟩ := hends.ends
  cases err with
  | false => exact ⟨s₂, hrun⟩
  | true =>
    refine absurd ⟨0, if_pos hfile, ?_⟩ hpost.1
    rw [hargv]
    exact hbuild

/-- The theorem for that caller, whose `exec` succeeds. -/
theorem argv_survives_oneString : ∃ (s : Sys) (l : List Word), Settled s l 0 1 ∧
    ∃ s' base p ptr', handleSyscall 0 (syscallExec (oneFile onePageFile)) s = .ok ((), s') ∧
      HandedOver s' 0 [[0x62]] base p ptr' := by
  obtain ⟨m, l, r, h⟩ := stackTable_run
  have hfits : Fits [[0x62]] := ⟨by decide, by decide⟩
  have huser := oneStringStack_argv h
  obtain ⟨hpath, hargv, page, s₁, hprep⟩ := h.prepares rfl (by decide) huser hfits
  have hsettled := h.settled (ustackBase + 8) oneStringStack
  obtain ⟨s₂, hcall⟩ := oneFile_succeeds hsettled (Nat.le_trans (by decide) h.room) hpath (by decide) hprep
  refine ⟨_, l, hsettled, (argv_survives hsettled).1 (fun _ => ustackBase + 24) [[0x62]] page _ s₁ s₂ (by decide)
    hfits ?_ hprep hcall⟩
  rw [hargv]
  exact huser

end Pmem

import Myv6.Pmem.CopyArgv

/-!
# Pmem/Syscall — `syscall_exec`, and what its caller finds in `a0`

    kalloc ──▸ copy_in_str ──▸ argv = NULL ──▸ err = exec      ──▸ kfree ──▸ err ? -1 : a0
                           └─▸ copy_in_argv ─▸ int err = exec  ──▸ kfree ──▸ a0

The path and the strings go through one page of the kernel, which is taken and given back.  The second
branch declares an `err` of its own, so a failure is lost there: `exec_reports_iff`.
-/

namespace Pmem

open Function (update)
open Bytes Hoare Own Vm
open Process (ProcId)

/-! ## The code -/

/-- The page after `memset`, over what it held: `total_size` is 304 words. -/
def argsCleared (f : Fin 512 → Word) (j : Fin 512) : Word := if (j : ℕ) < 304 then 0 else f j

/-- The error exits of `syscall_exec` before `exec`. -/
def execErr {α : Type} (page : Word) : Code (Option α) := do
  onMem (kfree page)
  pure none

/-- `syscall_exec` up to `exec`: its page and `argc`, which is `none` where `argv` is `NULL`.  Its first
test compares two constants. -/
def execPrepare (i : ProcId) : Code (Option (Word × Option ℕ)) := do
  match ← onMem kalloc with
  | none => pure none
  | some page =>
    onMem (alter fun m => m.fill page (argsCleared (m.cell page)))
    let proc ← inspect fun s => s.proc i
    let filePcharUva ← inspect fun s => s.mem.cell proc.trapFrame tfA0
    let argvUva ← inspect fun s => s.mem.cell proc.trapFrame tfA1
    if ← onMem (copyInStr proc.pgtable filePcharUva page (BitVec.ofNat 64 maxpath)) then
      execErr page
    else if argvUva = 0 then
      pure (some (page, none))
    else
      match ← onMem (copyInArgv proc.pgtable argvUva page) with
      | none => execErr page
      | some argc => pure (some (page, some argc))

/-- The two calls of `exec`. -/
def execCall (disk : Disk) (i : ProcId) (page : Word) (argc : Option ℕ) : Code Bool := do
  let file ← inspect fun s => cString (s.mem.cell page) 0 maxpath
  match argc with
  | none => exec disk i file 0 fun _ => 0
  | some argc =>
    let strInArgv ← inspect fun s k => byteAt (s.mem.cell page) (maxpath + k)
    exec disk i file argc strInArgv

/-- `syscall_exec` behind `exec`. -/
def execReturn (i : ProcId) (page : Word) (err : Bool) : Code Word := do
  onMem (kfree page)
  if err then
    pure (-1)
  else
    inspect fun s => s.mem.cell (s.proc i).trapFrame tfA0

/-- Returns what the caller finds in `a0`. -/
def syscallExec (disk : Disk) (i : ProcId) : Code Word := do
  match ← execPrepare i with
  | none => pure (-1)
  | some (page, argc) =>
    let ret ← execCall disk i page argc
    -- with `argv` the result goes to another `err`, declared in that branch, and is lost there
    execReturn i page (argc.isNone && ret)

/-- `handle_syscall`, once `a7` has chosen the call. -/
def handleSyscall (i : ProcId) (syscall : ProcId → Code Word) : Code Unit := do
  let tf ← inspect fun s => (s.proc i).trapFrame
  let retVal ← syscall i
  onMem (alter fun m => m.write tf tfA0 retVal)

variable {m m' : Mem} {l l' : List Word} {r page uva : Word} {E : Panic → Prop}

/-! ## `syscall_exec` up to `exec` -/

/-- **A process in user code**: an ordinary one, whose table was built by the operations. -/
structure Settled (s : Sys) (l : List Word) (j : ProcId) (n : ℕ) : Prop extends Ordinary s l j n where
  built : Built (s.proc j).pgtable s.mem

theorem UserArgv.congr {ptr : ℕ → Word} {args : List (List Byte)} (h : UserArgv m r uva ptr args)
    (hchar : userChar m' r = userChar m r) : UserArgv m' r uva ptr args := by
  have hword : ∀ uva w, UserWord m r uva w → UserWord m' r uva w := fun uva w hw k hk => by
    rw [hchar]
    exact hw k hk
  exact ⟨fun i hi => ⟨hword _ _ (h.pointer i hi).1, (h.pointer i hi).2⟩, hword _ _ h.null,
    fun i hi => hchar ▸ h.string i hi⟩

/-- **`kalloc` beside a table** hands over a page that user code does not reach. -/
theorem scratch_of_kalloc (h : Built r m) (hfree : FreeList m l) (hpage : m.image.IsPage page)
    (hmoves : Moves m m' l l' 0 (one page)) :
    Scratch m' l' r page ∧ userChar m' r = userChar m r := by
  obtain ⟨l₀, hl₀, honce⟩ := h.sound
  obtain rfl := hfree.unique hl₀
  have hkept : ∀ p, 0 < tables m r p → m'.cell p = m.cell p := by
    intro p hp
    have hone := honce p
    exact hmoves.frame (by omega) rfl
  have huser : ∀ v p, userPage m r v = some p → l.count p = 0 := by
    intro v p hp
    have hzero := (h.live v p hp).2 l hfree
    omega
  have hsame : ∀ p, l'.count p + one page p = l.count p := hmoves.same
  have hcount : 0 < l.count page := by
    have hp := hsame page
    rw [one_self] at hp
    omega
  obtain ⟨htab, -, hpages⟩ := table_congr hkept
  refine ⟨⟨h.of_kept hmoves.free hmoves.image hkept (fun p => ?_) fun v p hp => ?_, hmoves.free,
    hmoves.image ▸ hpage, ?_, fun v hv => ?_⟩, funext fun uva => funext fun k => ?_⟩
  · have hone := honce p
    have hp := hsame p
    omega
  · have hzero := huser v p hp
    have hp := hsame p
    omega
  · have hone := honce page
    have hp := hsame page
    rw [one_self] at hp
    rw [htab]
    omega
  · rw [userPage_congr (congrFun hpages v)] at hv
    have hzero := huser v page hv
    omega
  · unfold userChar Vm.translate
    rw [userPage_congr (congrFun hpages _)]
    cases hp : userPage m r (vpn (uva + BitVec.ofNat 64 k)) with
    | none => rfl
    | some p =>
      have hcell : m'.cell p = m.cell p := hmoves.frame (huser _ p hp) rfl
      simp only [Option.map_some, Mem.byte, roundDownPgsize_add (userPage_aligned hp), hcell]

/-- What is written to a page in the hand. -/
theorem Scratch.moves (h : Scratch m l r page) (hm : Only page m m') :
    Moves m m' l l (one page) (one page) := by
  have hout := h.out
  refine .of_write h.free (by omega) ?_ ?_ hm.cell ?_
  · rw [hm.rest]
  · rw [hm.rest]
  · rw [one_self]
    exact Nat.one_pos

/-- The path pointer of the call. -/
def fileUva (s : Sys) (j : ProcId) : Word := s.mem.cell (s.proc j).trapFrame tfA0

/-- The `argv` pointer of the call. -/
def argvUva (s : Sys) (j : ProcId) : Word := s.mem.cell (s.proc j).trapFrame tfA1

/-- **How `syscall_exec` gets to `exec`**: with the path and the strings of the caller in its page. -/
def Prepared (s : Sys) (l : List Word) (j : ProcId) : Option (Word × Option ℕ) → Sys → Prop
  | none, s' => s' = { s with mem := s'.mem } ∧ (∃ l', Moves s.mem s'.mem l l' 0 0) ∧
      (avail s.mem.deny l.length = 0 ∨
        (∀ path, Spells (userChar s.mem (s.proc j).pgtable (fileUva s j)) path → maxpath ≤ path.length) ∨
        argvUva s j ≠ 0 ∧ ∀ ptr args, UserArgv s.mem (s.proc j).pgtable (argvUva s j) ptr args → ¬Fits args)
  | some (page, argc), s' => s' = { s with mem := s'.mem } ∧ s.mem.image.IsPage page ∧
      (∃ l', Moves s.mem s'.mem l l' 0 (one page) ∧
        avail s.mem.deny l.length = avail s'.mem.deny l'.length + 1) ∧
      Spells (userChar s.mem (s.proc j).pgtable (fileUva s j)) (cString (s'.mem.cell page) 0 maxpath) ∧
      match argc with
      | none => argvUva s j = 0
      | some argc => argvUva s j ≠ 0 ∧ argc < argvn ∧ ∃ ptr,
          UserArgv s.mem (s.proc j).pgtable (argvUva s j) ptr (pageArgs (s'.mem.cell page) argc) ∧
          ∀ k < argc, Stored s.mem (s.proc j).pgtable (ptr k) page s'.mem k

section Prepare

variable {s s' s₁ s₂ : Sys} {n : ℕ} {j : ProcId} {disk : Disk}

/-- An error exit gives the page back. -/
theorem execErr_spec (hpage : s.mem.image.IsPage page) (hmoves : Moves s.mem m' l l' 0 (one page))
    (hfree : FreeList s.mem l)
    (hwhy : avail s.mem.deny l.length = 0 ∨
      (∀ path, Spells (userChar s.mem (s.proc j).pgtable (fileUva s j)) path → maxpath ≤ path.length) ∨
      argvUva s j ≠ 0 ∧
        ∀ ptr args, UserArgv s.mem (s.proc j).pgtable (argvUva s j) ptr args → ¬Fits args) :
    wp (execErr page) (Prepared s l j) E { s with mem := m' } := by
  unfold execErr
  rw [wp_bind, wp_onMem]
  refine wp_post (kfree_moves (A := 0) hmoves.free (hmoves.image ▸ hpage) fun q => ?_) ?_
  · have hsame : l'.count q + one page q = l.count q := hmoves.same q
    have hnodup := List.nodup_iff_count.mp hfree.nodup q
    rw [Pi.zero_apply]
    omega
  · rintro _ m₂ ⟨-, hmoves₂⟩
    refine ⟨rfl, ⟨_, hmoves.trans (hmoves₂.congr (fun q => ?_) fun _ => rfl)⟩, hwhy⟩
    exact (Nat.zero_add _).symm

/-- **`syscall_exec` up to `exec`.** -/
theorem execPrepare_spec (h : Settled s l j n) : wp (execPrepare j) (Prepared s l j) E s := by
  unfold execPrepare
  rw [wp_bind, wp_onMem]
  refine wp_post (kalloc_spec h.free) ?_
  rintro (_ | page) m₁ hpost
  · obtain ⟨hzero, d, rfl⟩ := hpost
    exact ⟨rfl, ⟨l, .of_deny h.free d⟩, .inl hzero⟩
  obtain ⟨hpage, l₁, hmoves₁, havail₁⟩ := hpost
  obtain ⟨hscratch₁, hchar₁⟩ := scratch_of_kalloc h.built h.free hpage hmoves₁
  have hfill : Only page m₁ (m₁.fill page (argsCleared (m₁.cell page))) := .fill
  have hscratch := hscratch₁.write hfill
  have hchar : userChar (m₁.fill page (argsCleared (m₁.cell page))) (s.proc j).pgtable =
      userChar s.mem (s.proc j).pgtable :=
    (funext fun _ => funext fun _ => hscratch₁.userChar_eq hfill).trans hchar₁
  have hzero : ∀ k < argvn, (m₁.fill page (argsCleared (m₁.cell page))).cell page (argvIndex k) = 0 := by
    intro k hk
    have hk32 : k < 32 := hk
    rw [Mem.fill_cell_self, argsCleared, if_pos]
    rw [argvIndex_val hk]
    omega
  have hmoves : Moves s.mem (m₁.fill page (argsCleared (m₁.cell page))) l l₁ 0 (one page) :=
    hmoves₁.trans (hscratch₁.moves hfill)
  have hout : page ≠ (s.proc j).trapFrame := by
    rintro rfl
    have hone := h.holds.once (s.proc j).trapFrame
    have hbeside := (s.proc j).beside_trapFrame
    have hsame := hmoves₁.same (s.proc j).trapFrame
    rw [one_self, Pi.zero_apply] at hsame
    omega
  have htf : (m₁.fill page (argsCleared (m₁.cell page))).cell (s.proc j).trapFrame =
      s.mem.cell (s.proc j).trapFrame :=
    hmoves.kept (R := (s.proc j).beside)
      (by have hone := h.holds.once (s.proc j).trapFrame; rw [Pi.zero_apply]; omega)
      (s.proc j).beside_trapFrame
  have hdeny : (m₁.fill page (argsCleared (m₁.cell page))).deny = m₁.deny := rfl
  rw [← hdeny] at havail₁
  simp only [wp_bind, wp_onMem, wp_alter, wp_inspect]
  rw [htf]
  generalize m₁.fill page (argsCleared (m₁.cell page)) = m₂ at *
  have hstr : wp (copyInStr (s.proc j).pgtable (fileUva s j) (page + BitVec.ofNat 64 0)
      (BitVec.ofNat 64 maxpath)) _ E m₂ := hscratch.copyInStr_part (by decide) (by decide)
  rw [BitVec.add_zero, hchar] at hstr
  have hmaxpath : (BitVec.ofNat 64 maxpath).toNat = maxpath := by decide
  refine wp_post hstr ?_
  rintro (_ | _) m₃ ⟨honly₃, hbytes₃, hend⟩
  swap
  · rw [if_pos rfl]
    refine execErr_spec hpage (hmoves.trans (hscratch.moves honly₃)) h.free (.inr (.inl fun path hpath => ?_))
    exact Nat.le_of_not_lt fun hlt => hend path (hmaxpath.symm ▸ hlt) hpath
  obtain ⟨path, hshort, hpath, hcopy⟩ := hend
  rw [hmaxpath] at hshort
  have hscratch₃ := hscratch.write honly₃
  have hmoves₃ := hmoves.trans (hscratch.moves honly₃)
  have hchar₃ : userChar m₃ (s.proc j).pgtable = userChar s.mem (s.proc j).pgtable :=
    (funext fun _ => funext fun _ => hscratch.userChar_eq honly₃).trans hchar
  have havail₃ : avail s.mem.deny l.length = avail m₃.deny l₁.length + 1 := by
    have hdeny₃ : m₃.deny = m₂.deny := by rw [honly₃.rest]
    rw [hdeny₃]
    exact havail₁
  rw [if_neg (by decide), wp_ite]
  refine ⟨fun hnull => ?_, fun hargv => ?_⟩
  · refine ⟨rfl, hpage, ⟨l₁, hmoves₃, havail₃⟩, ?_, hnull⟩
    rw [hcopy.cString_eq hshort]
    exact hpath
  · have hzero₃ : ∀ k < argvn, m₃.cell page (argvIndex k) = 0 := by
      intro k hk
      have hidx := argvIndex_val hk
      rw [← hzero k hk]
      refine word_eq_of_bytes fun b hb hbk => hbytes₃ b hb (.inr ?_)
      rw [hmaxpath]
      unfold maxpath
      omega
    rw [wp_bind, wp_onMem]
    refine wp_post (copyInArgv_spec hscratch₃ hzero₃) ?_
    rintro (_ | argc) m₄ ⟨honly₄, hpath₄, hend⟩
    · refine execErr_spec hpage (hmoves₃.trans (hscratch₃.moves honly₄)) h.free
        (.inr (.inr ⟨hargv, fun ptr args huser => hend ptr args (huser.congr hchar₃)⟩))
    · obtain ⟨hargc, ptr, huser, hstored⟩ := hend
      have hdeny₄ : m₄.deny = m₃.deny := by rw [honly₄.rest]
      refine ⟨rfl, hpage, ⟨l₁, hmoves₃.trans (hscratch₃.moves honly₄), ?_⟩, ?_, hargv, hargc, ptr,
        huser.congr hchar₃.symm, fun k hk => ?_⟩
      · rw [hdeny₄]
        exact havail₃
      · have hcopy₄ : Spells (fun k => some (byteAt (m₄.cell page) (0 + k))) path :=
          hcopy.congr fun k hk => congrArg some (hpath₄ _ (by omega))
        rw [hcopy₄.cString_eq hshort]
        exact hpath
      · obtain ⟨bs, hlt, hspells, hslot⟩ := hstored k hk
        exact ⟨bs, hlt, hchar₃ ▸ hspells, hslot⟩

/-! ## What the caller finds in `a0` -/

/-- **What is left of a call of `exec`**: the page and the trap frame are still the caller's. -/
structure Called (s : Sys) (l : List Word) (j : ProcId) (page : Word) (s₂ : Sys) (l₂ : List Word) : Prop where
  free : FreeList s₂.mem l₂
  image : s₂.mem.image = s.mem.image
  out : l₂.count page = 0
  tfOut : l₂.count (s.proc j).trapFrame = 0
  tfNe : page ≠ (s.proc j).trapFrame
  trapFrame : (s₂.proc j).trapFrame = (s.proc j).trapFrame

/-- The process, its page beside it. -/
theorem Prepared.holds {argc : Option ℕ} (h : Settled s l j n)
    (hprep : Prepared s l j (some (page, argc)) s₁) : ∃ l₁,
      Holds userPages s₁.mem l₁ (s₁.proc j).pgtable (fun q => (s.proc j).beside q + one page q) ∧
      Moves s.mem s₁.mem l l₁ 0 (one page) ∧ s₁ = { s with mem := s₁.mem } ∧
      avail s₁.mem.deny l₁.length = avail s.mem.deny l.length - 1 := by
  obtain ⟨hs₁, -, ⟨l₁, hmoves, havail⟩, -⟩ := hprep
  have honce : ∀ q, l.count q + (0 : Word → ℕ) q + tables s.mem (s.proc j).pgtable q ≤ 1 :=
    h.holds.tables_once
  have hproc : s₁.proc = s.proc := by rw [hs₁]
  have hspace := hmoves.space (S := userPages) honce
  refine ⟨l₁, ?_, hmoves, hs₁, by omega⟩
  rw [hproc]
  refine ⟨hmoves.free, fun q => ?_, fun q hq => ?_⟩
  · have hq := h.holds.once q
    have hsame := hmoves.same q
    rw [Pi.zero_apply] at hsame
    rw [hspace]
    omega
  · rw [hspace] at hq
    exact hmoves.image ▸ h.page q hq

/-- **The call of `exec`**, beside the page. -/
theorem execCall_execed {argc : Option ℕ} {err : Bool} (h : Settled s l j n)
    (hprep : Prepared s l j (some (page, argc)) s₁)
    (hcall : execCall disk j page argc s₁ = .ok (err, s₂)) : ∃ l₁,
      Holds userPages s₁.mem l₁ (s₁.proc j).pgtable (fun q => (s.proc j).beside q + one page q) ∧
      Moves s.mem s₁.mem l l₁ 0 (one page) ∧ s₁ = { s with mem := s₁.mem } ∧
      avail s₁.mem.deny l₁.length = avail s.mem.deny l.length - 1 ∧
      Execed s₁ l₁ j disk (cString (s₁.mem.cell page) 0 maxpath) (argc.getD 0) n
        (fun q => (s.proc j).beside q + one page q) err s₂ := by
  obtain ⟨l₁, hholds, hmoves, hs₁, havail⟩ := hprep.holds h
  have hproc : s₁.proc j = s.proc j := by rw [hs₁]
  have hspec : ∀ strInArgv, wp (exec disk j (cString (s₁.mem.cell page) 0 maxpath) (argc.getD 0) strInArgv)
      (Execed s₁ l₁ j disk (cString (s₁.mem.cell page) 0 maxpath) (argc.getD 0) n
        (fun q => (s.proc j).beside q + one page q)) (fun _ => True) s₁ := by
    intro strInArgv
    refine wp_mono (exec_spec hholds ?_ ?_) (fun _ _ => id) fun _ _ => trivial
    · rw [hproc]
      exact Nat.lt_of_lt_of_le (s.proc j).beside_trapFrame (Nat.le_add_right _ _)
    · rw [hproc]
      exact h.ends
  refine ⟨l₁, hholds, hmoves, hs₁, havail, ?_⟩
  cases argc with
  | none => exact (hspec _).ok hcall
  | some argc => exact (hspec _).ok hcall

/-- What is left of the call, without what only its success tells. -/
theorem execCall_called {argc : Option ℕ} {err : Bool} (h : Settled s l j n)
    (hprep : Prepared s l j (some (page, argc)) s₁)
    (hcall : execCall disk j page argc s₁ = .ok (err, s₂)) : ∃ l₂, Called s l j page s₂ l₂ ∧
      s₂.mem.cell (s.proc j).trapFrame tfA0 =
        (if err then fileUva s j else BitVec.ofNat 64 (argc.getD 0)) ∧
      (err = false ↔ Executable disk (cString (s₁.mem.cell page) 0 maxpath) (argc.getD 0)
        (avail s.mem.deny l.length - 1)) := by
  obtain ⟨l₁, hholds, hmoves, hs₁, havail, hpost⟩ := execCall_execed h hprep hcall
  have hbeside : 0 < (s.proc j).beside (s.proc j).trapFrame := (s.proc j).beside_trapFrame
  have htf₁ : s₁.mem.cell (s.proc j).trapFrame = s.mem.cell (s.proc j).trapFrame :=
    hmoves.kept (R := (s.proc j).beside)
      (by have hone := h.holds.once (s.proc j).trapFrame; rw [Pi.zero_apply]; omega) hbeside
  have hproc : s₁.proc j = s.proc j := by rw [hs₁]
  have htfOne := hholds.once (s.proc j).trapFrame
  have hpageOne := hholds.once page
  rw [one_self] at hpageOne
  have hne : page ≠ (s.proc j).trapFrame := by
    rintro rfl
    rw [one_self] at htfOne
    omega
  rw [← havail]
  cases err with
  | false =>
    obtain ⟨ip, hip, hbuild, t, e, -, -, hs₂, htf₂, l₂, hholds₂, hmoves₂, -⟩ := hpost
    have htf := hholds₂.once (s.proc j).trapFrame
    have hpage := hholds₂.once page
    dsimp only at htf hpage
    rw [one_self] at hpage
    refine ⟨l₂, ⟨hholds₂.free, hmoves₂.image.trans hmoves.image, by omega, by omega, hne, ?_⟩, ?_,
      fun _ => ⟨ip, hip, hbuild⟩, fun _ => rfl⟩
    · rw [hs₂]
      simp only [Function.update_self, Proc.loaded, hproc]
    · rw [hproc] at htf₂
      rw [htf₂]
      rfl
  | true =>
    obtain ⟨hnot, hs₂, l₂, f, hmoves₂, -⟩ := hpost
    have hpage := hmoves₂.same page
    have htf := hmoves₂.same (s.proc j).trapFrame
    rw [Pi.zero_apply] at hpage htf
    refine ⟨l₂, ⟨hmoves₂.free, hmoves₂.image.trans hmoves.image, by omega, by omega, hne, ?_⟩, ?_,
      fun herr => (nomatch herr), fun hexec => absurd hexec hnot⟩
    · rw [hs₂]
      exact congrArg Proc.trapFrame hproc
    · rw [hmoves₂.frame (by omega) rfl, htf₁]
      rfl

/-- `syscall_exec` behind `exec`, and `handle_syscall` behind it. -/
theorem handleSyscall_returns {argc : Option ℕ} {err : Bool} {l₂ : List Word} (hpage : s.mem.image.IsPage page)
    (hprep : execPrepare j s = .ok (some (page, argc), s₁))
    (hcall : execCall disk j page argc s₁ = .ok (err, s₂)) (h : Called s l j page s₂ l₂) :
    ∃ s', handleSyscall j (syscallExec disk) s = .ok ((), s') ∧ s' = { s₂ with mem := s'.mem } ∧
      s'.mem.cell (s.proc j).trapFrame = update (s₂.mem.cell (s.proc j).trapFrame) tfA0
        (if argc.isNone && err then -1 else s₂.mem.cell (s.proc j).trapFrame tfA0) ∧
      (∀ q, l₂.count q = 0 → q ≠ page → q ≠ (s.proc j).trapFrame → s'.mem.cell q = s₂.mem.cell q) ∧
      s'.mem.image = s₂.mem.image := by
  have hreturn : wp (execReturn j page (argc.isNone && err)) (fun ret s₃ =>
      s₃ = { s₂ with mem := s₃.mem } ∧ (∀ q, l₂.count q = 0 → q ≠ page → s₃.mem.cell q = s₂.mem.cell q) ∧
      s₃.mem.image = s₂.mem.image ∧ ret = if argc.isNone && err then -1 else s₂.mem.cell (s.proc j).trapFrame tfA0)
      (fun _ => False) s₂ := by
    unfold execReturn
    rw [wp_bind, wp_onMem]
    refine wp_mono (kfree_spec h.free h.out) ?_ fun e he => he.2 (h.image ▸ hpage)
    rintro _ m₃ ⟨-, hmoves, -⟩
    have hcell : ∀ q, l₂.count q = 0 → q ≠ page → m₃.cell q = s₂.mem.cell q := fun q hq hne =>
      hmoves.frame hq (one_of_ne hne)
    split
    · exact ⟨rfl, hcell, hmoves.image, rfl⟩
    · rw [wp_inspect]
      refine ⟨rfl, hcell, hmoves.image, ?_⟩
      dsimp only
      rw [h.trapFrame, hcell _ h.tfOut h.tfNe.symm]
  obtain ⟨ret, s₃, hrun, hs₃, hcell, himage, hret⟩ := hreturn.ends
  have hsys : syscallExec disk j s = .ok (ret, s₃) := by
    unfold syscallExec
    simp only [bind, StateT.bind, Except.bind, hprep, hcall, hrun]
  have hhandle : handleSyscall j (syscallExec disk) s =
      .ok ((), { s₃ with mem := s₃.mem.write (s.proc j).trapFrame tfA0 ret }) := by
    unfold handleSyscall inspect
    simp only [bind, StateT.bind, Except.bind, hsys]
    rfl
  refine ⟨_, hhandle, ?_, ?_, fun q hq hne hneTf => ?_, himage⟩
  · rw [hs₃]
  · dsimp only
    rw [Mem.write_cell_self, hcell _ h.tfOut h.tfNe.symm, hret]
  · dsimp only
    rw [Mem.write_cell_ne hneTf]
    exact hcell q hq hne

/-- A path that can be read is not at `-1`. -/
theorem fileUva_ne {path : List Byte} (h : Spells (userChar s.mem (s.proc j).pgtable (fileUva s j)) path) :
    fileUva s j ≠ -1 := by
  intro hneg
  obtain ⟨pte, hpte, -⟩ := h.stringAt.readable 0 (Nat.succ_pos _)
  rw [hneg, pages_of_le (by decide)] at hpte
  cases hpte

/-- What the caller finds in `a0`: after a failure with `argv`, the path pointer. -/
theorem handleSyscall_a0 {argc : Option ℕ} {err : Bool} (h : Settled s l j n)
    (hprep : execPrepare j s = .ok (some (page, argc), s₁))
    (hcall : execCall disk j page argc s₁ = .ok (err, s₂)) :
    ∃ s', handleSyscall j (syscallExec disk) s = .ok ((), s') ∧
      s'.mem.cell (s'.proc j).trapFrame tfA0 =
        if err then (if argc.isNone then -1 else fileUva s j) else BitVec.ofNat 64 (argc.getD 0) := by
  have hprepared := (execPrepare_spec (E := fun _ => True) h).ok hprep
  obtain ⟨l₂, hcalled, ha0, -⟩ := execCall_called h hprepared hcall
  obtain ⟨s', hrun, hs', htf, -⟩ := handleSyscall_returns hprepared.2.1 hprep hcall hcalled
  refine ⟨s', hrun, ?_⟩
  have htrapFrame : (s'.proc j).trapFrame = (s.proc j).trapFrame := by
    rw [hs']
    exact hcalled.trapFrame
  rw [htrapFrame, htf, Function.update_self, ha0]
  cases argc <;> cases err <;> rfl

/-- **`exec` reports what came of it** when `argv` is `NULL` or it has succeeded, and only then: for
every process, path, file and array, once the inner `exec` has returned, the caller finds `-1` after a
failure and `argc` after a success exactly if `argv` is `NULL` or the path names a file for which there
is memory. -/
theorem exec_reports_iff {argc : Option ℕ} {err : Bool} {path : List Byte} (h : Settled s l j n)
    (hpath : Spells (userChar s.mem (s.proc j).pgtable (fileUva s j)) path)
    (hprep : execPrepare j s = .ok (some (page, argc), s₁))
    (hcall : execCall disk j page argc s₁ = .ok (err, s₂)) :
    ∃ s', handleSyscall j (syscallExec disk) s = .ok ((), s') ∧
      (s'.mem.cell (s'.proc j).trapFrame tfA0 = (if err then -1 else BitVec.ofNat 64 (argc.getD 0)) ↔
        argvUva s j = 0 ∨ Executable disk path (argc.getD 0) (avail s.mem.deny l.length - 1)) := by
  have hprepared := (execPrepare_spec (E := fun _ => True) h).ok hprep
  obtain ⟨-, -, -, hok⟩ := execCall_called h hprepared hcall
  obtain ⟨-, -, -, hspells, hargv⟩ := hprepared
  rw [hspells.unique hpath] at hok
  obtain ⟨s', hrun, ha0⟩ := handleSyscall_a0 h hprep hcall
  refine ⟨s', hrun, ?_⟩
  rw [ha0, ← hok]
  cases argc with
  | none =>
    have hnull : argvUva s j = 0 := hargv
    cases err <;> simp [hnull]
  | some argc =>
    have hsome : argvUva s j ≠ 0 := hargv.1
    cases err with
    | false => simp
    | true =>
      -- the path pointer is what is left in the register
      exact ⟨fun heq => absurd heq (fileUva_ne hpath), fun hor => hor.elim (fun hzero => absurd hzero hsome) nofun⟩

/-- **An array that fits is accepted.** -/
theorem execPrepare_fits {path : List Byte} {ptr : ℕ → Word} {args : List (List Byte)} (h : Settled s l j n)
    (hroom : 0 < avail s.mem.deny l.length)
    (hpath : Spells (userChar s.mem (s.proc j).pgtable (fileUva s j)) path) (hshort : path.length < maxpath)
    (hargv : argvUva s j ≠ 0) (huser : UserArgv s.mem (s.proc j).pgtable (argvUva s j) ptr args)
    (hfits : Fits args) :
    ∃ page s₁, execPrepare j s = .ok (some (page, some args.length), s₁) := by
  obtain ⟨ret, s₁, hrun, hprep⟩ := (execPrepare_spec (E := fun _ => False) h).ends
  match ret, hprep with
  | none, hprep =>
    obtain ⟨-, -, hzero | hlong | ⟨-, hmisfit⟩⟩ := hprep
    · omega
    · exact absurd hshort (Nat.not_lt_of_le (hlong _ hpath))
    · exact absurd hfits (hmisfit _ _ huser)
  | some (page, none), hprep => exact absurd hprep.2.2.2.2 hargv
  | some (page, some argc), hprep =>
    obtain ⟨-, -, -, -, -, -, ptr', huser', -⟩ := hprep
    have hlen := congrArg List.length (huser'.unique huser)
    have hargc : argc = args.length := by simpa [pageArgs] using hlen
    exact ⟨page, s₁, hargc ▸ hrun⟩

end Prepare

/-! ## A caller with nothing but its stack

Its stack, its trap frame and its kernel stack are the first pages that `kalloc` hands out; the stack holds
the path and what it hands to `exec`. -/

def stackPage : Word := 0x87fff000

def framePage : Word := 0x87ffe000

def kstackPage : Word := 0x87ffd000

/-- Takes these pages from `kalloc`. -/
def takePages : List Word → Kernel Bool
  | [] => pure true
  | p :: ps => do
    match ← kalloc with
    | none => pure false
    | some q => if q = p then takePages ps else pure false

/-- A table with the stack alone. -/
def stackTable : Kernel (Option Word) := do
  kallocInit
  if ← takePages [stackPage, framePage, kstackPage] then
    match ← getPagetable with
    | none => pure none
    | some r =>
      if ← mapPage r ustackBase stackPage (pteR ||| pteW ||| pteU) then
        pure none
      else
        pure (some r)
  else
    pure none

def callerProc (pgtable : Word) : Proc :=
  { freshSlot with
    pid := some 0, status := .running, ustack := stackPage, memStart := 0x1000, memBrk := 0x1000
    memEnd := 0x1000, pgtable := pgtable, kstack := kstackPage, trapFrame := framePage }

/-- The path is at the bottom of the stack. -/
def callerFrame (argv : Word) (j : Fin 512) : Word :=
  if j = tfA0 then ustackBase else if j = tfA1 then argv else 0

def callerSys (m : Mem) (pgtable argv : Word) (stack : Fin 512 → Word) : Sys :=
  { smallBoot [] with
    mem := (m.fill stackPage stack).fill framePage (callerFrame argv)
    proc := update (smallBoot []).proc 0 (callerProc pgtable) }

/-- The pages of the caller beside its table. -/
def callerPages (q : Word) : ℕ := one framePage q + one stackPage q + one kstackPage q

/-- **Pages that were taken** are in the hand. -/
theorem takePages_spec {m : Mem} {l : List Word} (h : FreeList m l) (ps : List Word) :
    wp (takePages ps) (fun ret m' => ret = true → ∃ l', Moves m m' l l' 0 (fun q => ps.count q) ∧
      avail m.deny l.length = avail m'.deny l'.length + ps.length) E m := by
  induction ps generalizing m l with
  | nil => exact fun _ => ⟨l, .refl h, rfl⟩
  | cons p ps ih =>
    unfold takePages
    rw [wp_bind]
    refine wp_post (kalloc_spec h) ?_
    rintro (_ | q) m₁ hpost
    · exact nofun
    obtain ⟨-, l₁, hmoves₁, havail₁⟩ := hpost
    simp only [wp_ite]
    refine ⟨?_, fun _ => nofun⟩
    rintro rfl
    refine wp_post (ih hmoves₁.free) ?_
    rintro _ m₂ hpost rfl
    obtain ⟨l₂, hmoves₂, havail₂⟩ := hpost rfl
    refine ⟨l₂, hmoves₁.trans ((hmoves₂.beside (one q)).congr (fun _ => (Nat.zero_add _).symm) fun w => ?_), ?_⟩
    · rw [count_cons_one, Nat.add_comm]
    · rw [List.length_cons]
      omega

/-- **A table with the stack alone**, and plenty of pages. -/
structure StackOnly (m : Mem) (l : List Word) (r : Word) : Prop where
  holds : Holds userPages m l r callerPages
  built : Built r m
  stack : userPage m r 67108861 = some stackPage
  room : 24 ≤ avail m.deny l.length

/-- The small image has pages enough. -/
theorem smallImage_pages {l : List Word} (hmem : ∀ q, smallImage.IsPage q → q ∈ l) : 30 ≤ l.length := by
  have hnodup : ((List.range 30).map fun k => 0x87fe0000 + BitVec.ofNat 64 (4096 * k)).Nodup := by
    decide +kernel
  have hpages : ∀ k < 30, smallImage.IsPage (0x87fe0000 + BitVec.ofNat 64 (4096 * k)) := by
    intro k hk
    rw [Image.isPage_iff]
    interval_cases k <;> decide
  have hsub : List.Subperm _ l := hnodup.subperm fun q hq => by
    obtain ⟨k, hk, rfl⟩ := List.mem_map.mp hq
    exact hmem _ (hpages k (List.mem_range.mp hk))
  simpa using hsub.length_le

theorem stackTable_spec {m : Mem} (himage : m.image = smallImage) (hdeny : m.deny = []) :
    wp stackTable (fun ret m' => ∀ r, ret = some r → ∃ l, StackOnly m' l r) (fun _ => True) m := by
  unfold stackTable
  rw [wp_bind]
  refine wp_post kallocInit_spec ?_
  rintro _ m₀ ⟨himage₀, hdeny₀, l₀, hfree₀, hmem₀⟩
  have hlen : 30 ≤ l₀.length := smallImage_pages fun q hq => (hmem₀ q).mpr (himage ▸ hq)
  rw [wp_bind]
  refine wp_post (takePages_spec hfree₀ _) ?_
  rintro (_ | _) mₜ hpost
  · exact fun r hr => nomatch hr
  obtain ⟨lₜ, hmovesₜ, havailₜ⟩ := hpost rfl
  have hsame : ∀ q, lₜ.count q + callerPages q = l₀.count q := by
    intro q
    have hq := hmovesₜ.same q
    simp only [count_cons_one, List.count_nil, Pi.zero_apply] at hq
    unfold callerPages
    omega
  rw [if_pos rfl, wp_bind]
  have hbuilt : wp getPagetable (fun ret m => ∀ r, ret = some r → Built r m) (fun _ => True) mₜ :=
    wp_iff.mpr ⟨fun ret m hrun r hr => built_getPagetable hmovesₜ.free (hr ▸ hrun), fun _ _ => trivial⟩
  refine wp_mono (wp_and (getPagetable_holds (S := userPages) (E := fun _ => True) (R := callerPages)
    hmovesₜ.free fun q => ?_) hbuilt) ?_ fun _ _ => trivial
  · have hnodup := List.nodup_iff_count.mp hfree₀.nodup q
    have hq := hsame q
    omega
  rintro (_ | r) m₁ ⟨hpost, hbuilt₁⟩
  · exact fun r hr => nomatch hr
  obtain ⟨l₁, hholds₁, hmoves₁, hnone₁, hneed₁, havail₁⟩ := hpost
  have hvpn : vpn ustackBase = 67108861 := vpn_ustackBase
  have hout : ∀ q, 0 < callerPages q → l₁.count q + tables m₁ r q = 0 := by
    intro q hq
    have hone := hholds₁.once q
    unfold space at hone
    omega
  have hspare : Spare m₁ r stackPage := by
    refine ⟨?_, fun l hl => ?_⟩
    · rw [hmoves₁.image, hmovesₜ.image, himage₀, himage]
      decide
    obtain rfl := hl.unique hholds₁.free
    exact hout _ (by decide)
  have hframe : IsFrame stackPage := ⟨by decide, by decide⟩
  simp only
  rw [wp_bind]
  refine wp_mono (wp_and (mapPage_spec hholds₁.free hholds₁.tables_once)
    (mapPage_built (hbuilt₁ r rfl) hframe fun _ => hspare)) ?_ fun _ _ => trivial
  rintro (_ | _) m₂ ⟨hpost, hbuilt₂⟩
  swap
  · exact fun r hr => nomatch hr
  obtain ⟨-, -, l₂, hmoves₂, hpages₂, -, havail₂⟩ := hpost
  rintro _ ⟨⟩
  have hheld : ∀ q, held (pages m₂ r) userPages q = held (pages m₁ r) userPages q := by
    intro q
    refine held_congr (fun w hw => ?_) q
    have hne : w ≠ vpn ustackBase := by
      rw [hvpn]
      exact (mem_userPages_iff.mp hw).ne
    rw [hpages₂, Function.update_of_ne hne]
  refine ⟨l₂, hholds₁.of_moves ((hmoves₂.beside (held (pages m₁ r) userPages)).congr (fun _ => rfl)
    fun q => ?_), hbuilt₂, ?_, ?_⟩
  · unfold space
    rw [hheld]
  · rw [userPage, hpages₂, hvpn, Function.update_self]
    decide
  · rw [hneed₁] at havail₂
    rw [hdeny₀, hdeny] at havailₜ
    have hempty : avail [] l₀.length = l₀.length := rfl
    have hlevel : maxLevel = 2 := rfl
    have htaken : [stackPage, framePage, kstackPage].length = 3 := rfl
    omega

theorem stackTable_run : ∃ m l r, StackOnly m l r := by
  have hrun : (stackTable (smallMem [])).toOption.map (fun x => x.1.isSome) = some true := by
    decide +kernel
  obtain ⟨ret, m, hok, hsome⟩ := ok_of_map hrun
  obtain ⟨r, rfl⟩ := Option.isSome_iff_exists.mp hsome
  obtain ⟨l, h⟩ := (stackTable_spec rfl rfl).ok hok r rfl
  exact ⟨m, l, r, h⟩

section Caller

variable {m : Mem} {l : List Word} {r : Word} {off k q : ℕ} (argv : Word) (stack : Fin 512 → Word)

/-- The two pages that the caller has filled are not in its table. -/
theorem StackOnly.fill (h : StackOnly m l r) : ∃ m' : Mem, (callerSys m r argv stack).mem = m' ∧
    m'.cell stackPage = stack ∧ m'.cell framePage = callerFrame argv ∧ m'.deny = m.deny ∧
    Holds userPages m' l r callerPages ∧ Built r m' ∧ pages m' r = pages m r := by
  have hstack : 0 < callerPages stackPage := by decide
  have hframe : 0 < callerPages framePage := by decide
  obtain ⟨hholds₁, -, -, -, hpages₁⟩ := h.holds.write hstack stack
  obtain ⟨hholds₂, -, -, -, hpages₂⟩ := hholds₁.write hframe (callerFrame argv)
  have hout : ∀ q, 0 < tables m r q → ((m.fill stackPage stack).fill framePage (callerFrame argv)).cell q =
      m.cell q := by
    intro q hq
    have hone := h.holds.once q
    unfold space at hone
    have hneFrame : q ≠ framePage := by
      rintro rfl
      omega
    have hneStack : q ≠ stackPage := by
      rintro rfl
      omega
    rw [Mem.fill_cell_ne hneFrame, Mem.fill_cell_ne hneStack]
  have hlive : ∀ v p, userPage m r v = some p → l.count p = 0 := by
    intro v p hp
    have hzero := (h.built.live v p hp).2 l h.holds.free
    omega
  have hne : stackPage ≠ framePage := by decide
  exact ⟨_, rfl, (Mem.fill_cell_ne hne).trans Mem.fill_cell_self, Mem.fill_cell_self, rfl, hholds₂,
    h.built.of_kept hholds₂.free rfl hout h.holds.tables_once hlive, hpages₂.trans hpages₁⟩

/-- **The caller is in user code.** -/
theorem StackOnly.settled (h : StackOnly m l r) : Settled (callerSys m r argv stack) l 0 1 := by
  obtain ⟨m', hmem, -, -, -, hholds, hbuilt, -⟩ := h.fill argv stack
  have hproc : (callerSys m r argv stack).proc 0 = callerProc r := rfl
  refine ⟨⟨?_, fun q => ?_, ?_, ?_⟩, ?_⟩
  · rw [hmem]
    exact hholds.free
  · rw [hmem, hproc]
    have hone := hholds.once q
    unfold callerPages at hone
    unfold Proc.owns callerProc
    dsimp only
    omega
  · rw [hmem, hproc]
    exact hholds.page
  · have hend : (0x1000 : Word).toNat = 1 * 4096 := by decide
    exact ⟨hend, by decide, by decide⟩
  · rw [hmem, hproc]
    exact hbuilt

/-- Its stack is mapped. -/
theorem StackOnly.userPage (h : StackOnly m l r) :
    userPage (callerSys m r argv stack).mem r (vpn ustackBase) = some stackPage ∧
      (callerSys m r argv stack).mem.cell stackPage = stack := by
  obtain ⟨m', hmem, hstack, -, -, -, -, hpages⟩ := h.fill argv stack
  rw [hmem, vpn_ustackBase]
  exact ⟨(userPage_congr (congrFun hpages _)).trans h.stack, hstack⟩

/-- What it has on its stack. -/
theorem StackOnly.char (h : StackOnly m l r) (hk : off + k < 4096) :
    userChar (callerSys m r argv stack).mem r (ustackBase + BitVec.ofNat 64 off) k =
      some (byteAt stack (off + k)) := by
  obtain ⟨hpage, hstack⟩ := h.userPage argv stack
  rw [userChar_of_page hpage (by decide) hk, hstack]

/-- A word of the stack. -/
theorem StackOnly.word (h : StackOnly m l r) (hq : q < 512) :
    UserWord (callerSys m r argv stack).mem r (ustackBase + BitVec.ofNat 64 (8 * q)) (stack (Fin.ofNat 512 q)) := by
  obtain ⟨hpage, hstack⟩ := h.userPage argv stack
  have hword := userWord_of_page hpage (by decide) hq
  rwa [hstack] at hword

end Caller

theorem length_nil_lt : ([] : List Byte).length < 2 ^ 32 := by
  decide

/-- A disk with nothing but the directory that an empty path finds. -/
def emptyDisk : Disk where
  namei path := if path = [] then some 0 else none
  inode _ := { isFile := false, file := ⟨[], length_nil_lt⟩ }

/-- The path and the array of a caller on its stack. -/
theorem StackOnly.prepares {m : Mem} {l : List Word} {r argv : Word} {stack : Fin 512 → Word}
    {ptr : ℕ → Word} {args : List (List Byte)} (h : StackOnly m l r)
    (hword : stack 0 = 0x61) (hargv : argv ≠ 0)
    (huser : UserArgv (callerSys m r argv stack).mem r argv ptr args) (hfits : Fits args) :
    Spells (userChar (callerSys m r argv stack).mem r (fileUva (callerSys m r argv stack) 0)) [0x61] ∧
      argvUva (callerSys m r argv stack) 0 = argv ∧
      ∃ page s₁, execPrepare 0 (callerSys m r argv stack) = .ok (some (page, some args.length), s₁) := by
  have hsettled := h.settled argv stack
  obtain ⟨m', hmem, -, hframe, hdeny, -⟩ := h.fill argv stack
  have hproc : (callerSys m r argv stack).proc 0 = callerProc r := rfl
  have hfile : fileUva (callerSys m r argv stack) 0 = ustackBase := by
    rw [fileUva, hmem, hproc]
    exact congrFun hframe tfA0
  have hptr : argvUva (callerSys m r argv stack) 0 = argv := by
    rw [argvUva, hmem, hproc]
    exact congrFun hframe tfA1
  have hpath : Spells (userChar (callerSys m r argv stack).mem r ustackBase) [0x61] := by
    have hchar : ∀ k < 2, userChar (callerSys m r argv stack).mem r ustackBase k = some (byteOf 0x61 k) := by
      intro k hk
      have hchar := h.char argv stack (by omega : 0 + k < 4096)
      have hbyte : byteAt stack k = byteOf (stack 0) k := by
        interval_cases k <;> rfl
      rwa [BitVec.add_zero, Nat.zero_add, hbyte, hword] at hchar
    refine ⟨fun k hk => ?_, ?_, by decide⟩
    · obtain rfl : k = 0 := Nat.lt_one_iff.mp hk
      exact (hchar 0 (by decide)).trans rfl
    · exact (hchar 1 (by decide)).trans (by decide)
  rw [hfile]
  refine ⟨hpath, hptr, execPrepare_fits hsettled ?_ (hfile ▸ hpath) (by decide) (hptr.symm ▸ hargv)
    (hptr.symm ▸ huser) hfits⟩
  have hroom := h.room
  have hdeny' : (callerSys m r argv stack).mem.deny = m.deny := by rw [hmem, hdeny]
  rw [hdeny']
  omega

/-- The path `a`, and an empty array behind it. -/
def pathStack (q : Fin 512) : Word := if q = 0 then 0x61 else 0

/-- **A path that is not found**: `exec` fails. -/
theorem emptyDisk_run : ∃ (s : Sys) (l : List Word) (page : Word) (s₁ : Sys), Settled s l 0 1 ∧
    argvUva s 0 ≠ 0 ∧ Spells (userChar s.mem (s.proc 0).pgtable (fileUva s 0)) [0x61] ∧
    execPrepare 0 s = .ok (some (page, some 0), s₁) ∧ execCall emptyDisk 0 page (some 0) s₁ = .ok (true, s₁) := by
  obtain ⟨m, l, r, h⟩ := stackTable_run
  have huser : UserArgv (callerSys m r (ustackBase + 8) pathStack).mem r (ustackBase + 8) (fun _ => 0) [] :=
    ⟨fun i hi => absurd hi (Nat.not_lt_zero i), h.word _ _ (q := 1) (by decide),
      fun i hi => absurd hi (Nat.not_lt_zero i)⟩
  obtain ⟨hpath, hargv, page, s₁, hprep⟩ :=
    h.prepares rfl (by decide) huser ⟨by decide, fun bs hbs => nomatch hbs⟩
  have hsettled := h.settled (ustackBase + 8) pathStack
  have hprepared := (execPrepare_spec (E := fun _ => True) hsettled).ok hprep
  have hfile := hprepared.2.2.2.1.unique hpath
  have hcall : execCall emptyDisk 0 page (some 0) s₁ = .ok (true, s₁) := by
    unfold execCall inspect
    simp only [bind, StateT.bind, Except.bind, hfile]
    rfl
  exact ⟨_, l, page, s₁, hsettled, hargv.symm ▸ by decide, hpath, hprep, hcall⟩

/-- The theorem for that call: the caller does not find `-1`, though `exec` has failed. -/
theorem exec_reports_iff_emptyDisk : ∃ (s : Sys) (l : List Word), Settled s l 0 1 ∧
    ∃ s', handleSyscall 0 (syscallExec emptyDisk) s = .ok ((), s') ∧
      (s'.mem.cell (s'.proc 0).trapFrame tfA0 = -1 ↔
        argvUva s 0 = 0 ∨ Executable emptyDisk [0x61] 0 (avail s.mem.deny l.length - 1)) ∧
      s'.mem.cell (s'.proc 0).trapFrame tfA0 ≠ -1 := by
  obtain ⟨s, l, page, s₁, hsettled, hargv, hpath, hprep, hcall⟩ := emptyDisk_run
  obtain ⟨s', hrun, hiff⟩ := exec_reports_iff hsettled hpath hprep hcall
  refine ⟨s, l, hsettled, s', hrun, hiff, fun hneg => ?_⟩
  obtain hnull | ⟨ip, hip, -⟩ := hiff.mp hneg
  · exact hargv hnull
  · exact nomatch hip

/-- **A failed `exec` with `argv` returns the path pointer.** -/
theorem not_exec_reports : ¬∀ (s : Sys) (l : List Word) (j : ProcId) (n : ℕ) (disk : Disk) (page : Word)
    (argc : Option ℕ) (s₁ s₂ : Sys) (err : Bool), Settled s l j n →
    execPrepare j s = .ok (some (page, argc), s₁) → execCall disk j page argc s₁ = .ok (err, s₂) →
    ∃ s', handleSyscall j (syscallExec disk) s = .ok ((), s') ∧
      s'.mem.cell (s'.proc j).trapFrame tfA0 = if err then -1 else BitVec.ofNat 64 (argc.getD 0) := by
  intro hall
  obtain ⟨s, l, page, s₁, hsettled, -, hpath, hprep, hcall⟩ := emptyDisk_run
  obtain ⟨s', hrun, ha0⟩ := hall s l 0 1 emptyDisk page (some 0) s₁ s₁ true hsettled hprep hcall
  obtain ⟨s'', hrun', ha0'⟩ := handleSyscall_a0 hsettled hprep hcall
  obtain rfl : s' = s'' := congrArg Prod.snd (Except.ok.inj (hrun.symm.trans hrun'))
  exact fileUva_ne hpath (ha0'.symm.trans ha0)

end Pmem

import LowLatencyPipeline.Common.Attach
import LowLatencyPipeline.Exec.ModuleImage
import LowLatencyPipeline.Library.Machine

/-!
# Loading strategies

`load_strategy` of `exec/loader.cpp`, with `check_module` and the table of builtins: a module file
is mapped, checked, copied into a memfd and opened by the path of that descriptor. `Proc` is what
the process holds of it (descriptors, mappings, the libraries of the dynamic linker, which it knows
by path), and `Outcomes` how the calls to the system go.

`loads_exact`: in any sequence of loads, each module loaded runs the bytes that were copied for it,
and the process holds what the loaded modules need and nothing else.
-/

namespace LowLatencyPipeline

namespace Exec

open Common Strtol

/-! ### Modules -/

/-- `MODULE_ABI_VERSION`. -/
def MODULE_ABI_VERSION : UInt32 := 1

/-- `exec_abi_hash`, from the numbers of `compute_layout_hash` and its own. -/
def execAbiHash (layout abi : List UInt64) : UInt32 := abi.foldl fnv1a (computeLayoutHash layout)

/-- `ll_strategy_module_v1`, of its entry points whether they are there. -/
structure StrategyModule where
  abiVersion : UInt32
  layoutHash : UInt32
  isaMask : UInt32
  name : List Char
  buildId : List Char
  create : Bool
  runNull : Bool
  destroy : Bool
  deriving DecidableEq

/-- What `exec_main` was built with, and the machine that it runs on. -/
structure Host where
  layout : List UInt64
  abi : List UInt64
  /-- `cpu_isa_mask` -/
  cpu : UInt32
  /-- `Builtins::table` -/
  builtins : List StrategyModule
  few : builtins.length ≤ 16

/-- `check_module`: the reason why the module is refused. -/
def checkModule (host : Host) (m : StrategyModule) : Option (List Char) :=
  if m.abiVersion ≠ MODULE_ABI_VERSION then some "module ABI version mismatch".toList
  else if m.layoutHash ≠ execAbiHash host.layout host.abi then
    some ("module '".toList ++ m.name ++
      "' was built against a different shm/exec layout (build ".toList ++ m.buildId ++
      "); rebuild it".toList)
  else if m.isaMask &&& ~~~host.cpu ≠ 0 then
    some ("module '".toList ++ m.name ++
      "' uses CPU features this machine lacks (built with -march=native elsewhere?)".toList)
  else if !m.create || !m.runNull || !m.destroy then
    some ("module '".toList ++ m.name ++ "' is missing entry points".toList)
  else none

/-- What a module that passes has. -/
structure StrategyModule.Fits (m : StrategyModule) (host : Host) : Prop where
  abiVersion : m.abiVersion = MODULE_ABI_VERSION
  layoutHash : m.layoutHash = execAbiHash host.layout host.abi
  isaMask : m.isaMask &&& ~~~host.cpu = 0
  entries : m.create = true ∧ m.runNull = true ∧ m.destroy = true

theorem checkModule_eq_none {host : Host} {m : StrategyModule} :
    checkModule host m = none ↔ m.Fits host := by
  unfold checkModule
  constructor
  · intro h
    split_ifs at h with habi hhash hisa hentries
    exact ⟨not_not.1 habi, not_not.1 hhash, not_not.1 hisa, by simpa [and_assoc] using hentries⟩
  · rintro ⟨habi, hhash, hisa, hcreate, hrun, hdestroy⟩
    simp [habi, hhash, hisa, hcreate, hrun, hdestroy]

/-- A module built with one other number does not fit. -/
theorem StrategyModule.Fits.not_differOnce {host : Host} {m : StrategyModule} (h : m.Fits host)
    {layout abi : List UInt64} (hbuild : m.layoutHash = execAbiHash layout abi) :
    ¬DifferOnce (layout ++ abi) (host.layout ++ host.abi) := by
  intro hdiffer
  refine hdiffer.hash_ne (h := 2166136261) ?_
  rw [List.foldl_append, List.foldl_append]
  exact hbuild.symm.trans h.layoutHash

/-! ### The process -/

/-- What is behind a descriptor. -/
inductive OpenFile
  | memfd (content : List UInt8)
  | other

/-- A library that the dynamic linker has. -/
structure Library where
  path : List Char
  handle : ℕ
  image : List UInt8
  /-- how often it was opened -/
  refs : ℕ

/-- What the process holds. -/
structure Proc where
  fds : ℕ → Option OpenFile := fun _ => none
  /-- the mappings that `load_strategy` has made -/
  maps : ℕ := 0
  libraries : List Library := []

/-- The path of a descriptor. -/
def procPath (fd : ℕ) : List Char := "/proc/self/fd/".toList ++ decimal fd

namespace Proc

variable (p : Proc)

/-- A descriptor is opened. -/
def openFd (fd : ℕ) (file : OpenFile) : Proc :=
  { p with fds := Function.update p.fds fd (some file) }

/-- `close`. -/
def close (fd : ℕ) : Proc := { p with fds := Function.update p.fds fd none }

/-- `mmap`. -/
def mmap : Proc := { p with maps := p.maps + 1 }

/-- `munmap`. -/
def munmap : Proc := { p with maps := p.maps - 1 }

/-- `dlopen` of the path of a descriptor. A library that it has by this path is not opened again,
and a new one gets a new handle if it can be linked. -/
def dlopen (fd : ℕ) (handle : Option ℕ) : Option ℕ × Proc :=
  match p.libraries.find? (·.path = procPath fd) with
  | some l => (some l.handle, { p with
      libraries := p.libraries.map fun x =>
        if x.path = procPath fd then { x with refs := x.refs + 1 } else x })
  | none =>
    match p.fds fd, handle with
    | some (.memfd image), some h =>
      (some h, { p with libraries := ⟨procPath fd, h, image, 1⟩ :: p.libraries })
    | _, _ => (none, p)

/-- `dlclose`. -/
def dlclose (h : ℕ) : Proc := { p with
  libraries := p.libraries.filterMap fun x =>
    if x.handle = h then if x.refs ≤ 1 then none else some { x with refs := x.refs - 1 }
    else some x }

/-- The code behind a handle. -/
def imageOf (h : ℕ) : Option (List UInt8) := (p.libraries.find? (·.handle = h)).map Library.image

end Proc

/-! ### Loading -/

/-- How the system's calls go. -/
structure Outcomes where
  /-- `open` -/
  fd : Option ℕ
  /-- `st_size`, if `fstat` works -/
  size : Option ℤ
  /-- `mmap` -/
  mapping : Option Mapping
  memfd : Option ℕ
  /-- what the calls of `write` return -/
  writes : List ℤ
  /-- what is mapped when it is copied -/
  copy : List UInt8
  /-- a handle, if the module can be linked -/
  handle : Option ℕ
  dlerror : List Char

/-- `LoadedModule`. -/
structure LoadedModule where
  m : Option StrategyModule := none
  handle : Option ℕ := none
  memfd : Option ℕ := none

/-- What `load_strategy` gives back: the reason, if it fails (as a whole, where `err` may be too
short for it), and the module. -/
structure LoadResult where
  err : Option (List Char)
  out : LoadedModule

/-- `load_strategy` fails. -/
def LoadResult.fail (err : List Char) : LoadResult := ⟨some err, {}⟩

/-- `is_module_path`. -/
def isModulePath (spec : List Char) : Bool :=
  spec.contains '/' || (3 < spec.length && spec.drop (spec.length - 3) = ".so".toList)

/-- The loop of the `write` calls: what they have written of the image. -/
def writeAll : List ℤ → List UInt8 → List UInt8
  | [], _ => []
  | w :: writes, img =>
    if img = [] ∨ w ≤ 0 then [] else img.take w.toNat ++ writeAll writes (img.drop w.toNat)

/-- `load_strategy` of a builtin. -/
def loadBuiltin (host : Host) (spec : List Char) : LoadResult :=
  let name := if "builtin:".toList <+: spec then spec.drop 8 else spec
  match host.builtins.find? (·.name = name) with
  | none => .fail ("no builtin strategy '".toList ++ name ++ "' in this binary".toList)
  | some m => ⟨checkModule host m, { m := some m }⟩

/-- `load_strategy` from the copy of the image in a memfd on. -/
def linkModule (host : Host) (entry : List UInt8 → Option StrategyModule) (os : Outcomes)
    (spec : List Char) (mfd : ℕ) (p : Proc) : LoadResult × Proc :=
  match p.dlopen mfd os.handle with
  | (none, p) => (.fail ("dlopen failed: ".toList ++ os.dlerror), p.close mfd)
  | (some h, p) =>
    match (p.imageOf h).bind entry with
    | none => (.fail (spec ++ " exports no ll_strategy_module".toList), (p.dlclose h).close mfd)
    | some m =>
      match checkModule host m with
      | some err => (.fail err, (p.dlclose h).close mfd)
      | none => (⟨none, some m, some h, some mfd⟩, p)

/-- `load_strategy` from the mapped image on. -/
def copyModule (host : Host) (entry : List UInt8 → Option StrategyModule) (os : Outcomes)
    (spec : List Char) (mapping : Mapping) (p : Proc) : LoadResult × Proc :=
  let failed := LoadResult.fail ("cannot copy module ".toList ++ spec ++ " into a memfd".toList)
  match mapping.verdict, os.memfd with
  | .error err, _ => (.fail err.toList, p.munmap)
  | .ok (), none => (failed, p.munmap)
  | .ok (), some mfd =>
    let written := writeAll os.writes os.copy
    let p := (p.openFd mfd (.memfd written)).munmap
    if written.length = mapping.len.toNat then linkModule host entry os spec mfd p
    else (failed, p.close mfd)

/-- `load_strategy`. `entry` is what the code of a library returns from `ll_strategy_module`. -/
def loadStrategy (host : Host) (entry : List UInt8 → Option StrategyModule) (os : Outcomes)
    (spec : List Char) (p : Proc) : LoadResult × Proc :=
  if !isModulePath spec then (loadBuiltin host spec, p)
  else
    match os.fd with
    | none => (.fail ("cannot open module ".toList ++ spec), p)
    | some fd =>
      let p := p.openFd fd .other
      match os.size.filter (0 < ·) with
      | none => (.fail ("cannot stat module ".toList ++ spec), p.close fd)
      | some _ =>
        match os.mapping with
        | none => (.fail ("cannot read module ".toList ++ spec), p.close fd)
        | some mapping => copyModule host entry os spec mapping (p.mmap.close fd)

/-! ### Any number of loads -/

/-- The process and the modules that it has loaded, the newest first. -/
structure Loading where
  proc : Proc := {}
  loaded : List LoadedModule := []

/-- What happens next. -/
inductive LoadStep
  | load (spec : List Char) (os : Outcomes)
  /-- the process opens another descriptor -/
  | opened (fd : ℕ)
  /-- it closes one that is not a module's -/
  | closed (fd : ℕ)

/-- One step. -/
def loadStep (host : Host) (entry : List UInt8 → Option StrategyModule) (s : Loading) :
    LoadStep → Option Loading
  | .load spec os =>
    let r := loadStrategy host entry os spec s.proc
    some {
      proc := r.2
      loaded := if r.1.err.isNone then r.1.out :: s.loaded else s.loaded }
  | .opened fd =>
    match s.proc.fds fd with
    | none => some { s with proc := s.proc.openFd fd .other }
    | some _ => none
  | .closed fd =>
    match s.proc.fds fd with
    | some .other => some { s with proc := s.proc.close fd }
    | _ => none

/-- A process that loads modules and keeps them. -/
def loading (host : Host) (entry : List UInt8 → Option StrategyModule) :
    Machine Loading LoadStep where
  Init s := ∃ fds : ℕ → Option OpenFile, (∀ fd content, fds fd ≠ some (.memfd content)) ∧
    s = { proc := { fds } }
  step := loadStep host entry

/-- The system hands out no descriptor or handle that is in use, and a mapping has the size of the
file. -/
structure Outcomes.Possible (os : Outcomes) (p : Proc) : Prop where
  fd : ∀ fd ∈ os.fd, p.fds fd = none
  mapping : ∀ mapping ∈ os.mapping, os.size = some (mapping.len.toNat : ℤ)
  copy : ∀ mapping ∈ os.mapping, os.copy.length = mapping.len.toNat
  memfd : ∀ fd ∈ os.memfd, p.fds fd = none
  handle : ∀ h ∈ os.handle, ∀ l ∈ p.libraries, l.handle ≠ h

/-- The loads of a run go as they can. -/
def Lawful (s : Loading) : LoadStep → Prop
  | .load _ os => os.Possible s.proc
  | _ => True

section Steps

variable {host : Host} {entry : List UInt8 → Option StrategyModule} {os : Outcomes}
  {spec : List Char} {p : Proc} {s t : Loading} {fd mfd : ℕ} {file : OpenFile}

theorem procPath_inj {fd' : ℕ} : procPath fd = procPath fd' ↔ fd = fd' := by
  refine ⟨fun heq => ?_, congrArg procPath⟩
  have hdecimal : decimal fd = decimal fd' := List.append_cancel_left heq
  exact Int.ofNat_inj.1 (decimal_injective hdecimal)

/-- What was opened is closed again. -/
theorem close_openFd (hfd : p.fds fd = none) : (p.openFd fd file).close fd = p := by
  have hfds : Function.update (Function.update p.fds fd (some file)) fd none = p.fds := by
    rw [Function.update_idem, ← hfd, Function.update_eq_self]
  unfold Proc.close Proc.openFd
  rw [hfds]

theorem writeAll_isPrefix (writes : List ℤ) (img : List UInt8) : writeAll writes img <+: img := by
  induction writes generalizing img with
  | nil => exact List.nil_prefix
  | cons w writes ih =>
    rw [writeAll]
    split_ifs
    · exact List.nil_prefix
    · conv_rhs => rw [← List.take_append_drop w.toNat img]
      exact (List.prefix_append_right_inj _).2 (ih _)

/-- **What a load does**: it fails and the process is as before, it finds a builtin, or it has one
more memfd and one more library. -/
inductive LoadEffect (host : Host) (entry : List UInt8 → Option StrategyModule) (os : Outcomes)
    (p : Proc) : LoadResult × Proc → Prop
  | failed (err : List Char) (out : LoadedModule) : LoadEffect host entry os p (⟨some err, out⟩, p)
  | builtin {m : StrategyModule} : m ∈ host.builtins → m.Fits host →
      LoadEffect host entry os p (⟨none, { m := some m }⟩, p)
  | module {m : StrategyModule} {mapping : Mapping} {h mfd : ℕ} : os.mapping = some mapping →
      mapping.verdict = .ok () → os.handle = some h → os.memfd = some mfd →
      entry os.copy = some m → m.Fits host →
      LoadEffect host entry os p (⟨none, some m, some h, some mfd⟩,
        { p.openFd mfd (.memfd os.copy) with
          libraries := ⟨procPath mfd, h, os.copy, 1⟩ :: p.libraries })

theorem LoadEffect.fail (err : List Char) : LoadEffect host entry os p (.fail err, p) :=
  .failed err {}

/-- `dlopen` of a path that the linker does not have. -/
theorem dlopen_of_fresh (hpath : ∀ l ∈ p.libraries, l.path ≠ procPath mfd) {image : List UInt8}
    (handle : Option ℕ) : (p.openFd mfd (.memfd image)).dlopen mfd handle =
      match handle with
      | none => (none, p.openFd mfd (.memfd image))
      | some h => (some h, { p.openFd mfd (.memfd image) with
          libraries := ⟨procPath mfd, h, image, 1⟩ :: p.libraries }) := by
  have hfind : (p.openFd mfd (.memfd image)).libraries.find? (·.path = procPath mfd) = none :=
    List.find?_eq_none.2 fun l hl => by simpa using hpath l hl
  have hfile : (p.openFd mfd (.memfd image)).fds mfd = some (.memfd image) :=
    Function.update_self ..
  unfold Proc.dlopen
  rw [hfind, hfile]
  cases handle <;> rfl

/-- `dlclose` of the library that was opened last. -/
theorem dlclose_new {h : ℕ} {path : List Char} {image : List UInt8}
    (hfresh : ∀ l ∈ p.libraries, l.handle ≠ h) :
    ({ p with libraries := ⟨path, h, image, 1⟩ :: p.libraries } : Proc).dlclose h = p := by
  have hrest : p.libraries.filterMap (fun x =>
      if x.handle = h then if x.refs ≤ 1 then none else some { x with refs := x.refs - 1 }
      else some x) = p.libraries := by
    rw [List.filterMap_congr fun l hl => if_neg (hfresh l hl), List.filterMap_some]
  unfold Proc.dlclose
  rw [List.filterMap_cons_none (by simp), hrest]

/-- The linker has no library by the path of a descriptor that is not a memfd. -/
def Linked (p : Proc) : Prop :=
  ∀ l ∈ p.libraries, ∃ fd, l.path = procPath fd ∧ p.fds fd = some (.memfd l.image)

theorem Linked.path_ne (h : Linked p) (hmfd : p.fds mfd = none) :
    ∀ l ∈ p.libraries, l.path ≠ procPath mfd := by
  intro l hl heq
  obtain ⟨fd, hpath, hfd⟩ := h l hl
  rw [procPath_inj.1 (hpath.symm.trans heq), hmfd] at hfd
  cases hfd

/-- From the memfd on. -/
theorem linkModule_effect (hlinked : Linked p) (hos : os.Possible p) {mapping : Mapping}
    (hmapping : os.mapping = some mapping) (hverdict : mapping.verdict = .ok ())
    (hmfd : os.memfd = some mfd) :
    LoadEffect host entry os p
      (linkModule host entry os spec mfd (p.openFd mfd (.memfd os.copy))) := by
  have hclosed : p.fds mfd = none := hos.memfd mfd hmfd
  unfold linkModule
  rw [dlopen_of_fresh (hlinked.path_ne hclosed)]
  cases hhandle : os.handle with
  | none =>
    dsimp only
    rw [close_openFd hclosed]
    exact .fail _
  | some h =>
    have hfresh : ∀ l ∈ p.libraries, l.handle ≠ h := hos.handle h hhandle
    have hundone : (({ p.openFd mfd (.memfd os.copy) with
        libraries := ⟨procPath mfd, h, os.copy, 1⟩ :: p.libraries } : Proc).dlclose h).close mfd =
          p := by
      have hdlclose : ({ p.openFd mfd (.memfd os.copy) with
          libraries := ⟨procPath mfd, h, os.copy, 1⟩ :: p.libraries } : Proc).dlclose h =
            p.openFd mfd (.memfd os.copy) := dlclose_new hfresh
      rw [hdlclose, close_openFd hclosed]
    have himage : ({ p.openFd mfd (.memfd os.copy) with
        libraries := ⟨procPath mfd, h, os.copy, 1⟩ :: p.libraries } : Proc).imageOf h =
          some os.copy := by
      simp [Proc.imageOf]
    dsimp only
    rw [himage, Option.bind_some]
    split
    · rw [hundone]
      exact .fail _
    · next m hm =>
      split
      · rw [hundone]
        exact .fail _
      · next hcheck =>
        exact .module hmapping hverdict hhandle hmfd hm (checkModule_eq_none.1 hcheck)

/-- From the mapped image on. -/
theorem copyModule_effect (hlinked : Linked p) (hos : os.Possible p) {mapping : Mapping}
    (hmapping : os.mapping = some mapping) :
    LoadEffect host entry os p (copyModule host entry os spec mapping p.mmap) := by
  have hmunmap : p.mmap.munmap = p := rfl
  unfold copyModule
  split
  · rw [hmunmap]
    exact .fail _
  · rw [hmunmap]
    exact .fail _
  · next mfd hverdict hmfd =>
    have hclosed : p.fds mfd = none := hos.memfd mfd hmfd
    have hopen : ∀ file, (p.mmap.openFd mfd file).munmap = p.openFd mfd file := fun _ => rfl
    dsimp only
    rw [hopen]
    split_ifs with hlength
    · -- all of the image is written
      have hall : writeAll os.writes os.copy = os.copy :=
        (writeAll_isPrefix _ _).eq_of_length (hlength.trans (hos.copy _ hmapping).symm)
      rw [hall]
      exact linkModule_effect hlinked hos hmapping hverdict hmfd
    · rw [close_openFd hclosed]
      exact .fail _

/-- **The load lemma.** -/
theorem loadStrategy_effect (hlinked : Linked p) (hos : os.Possible p) :
    LoadEffect host entry os p (loadStrategy host entry os spec p) := by
  unfold loadStrategy
  split_ifs with hpath
  · unfold loadBuiltin
    dsimp only
    split
    · exact .fail _
    · next m hm =>
      cases hcheck : checkModule host m with
      | some err => exact .failed err _
      | none => exact .builtin (List.mem_of_find?_eq_some hm) (checkModule_eq_none.1 hcheck)
  · split
    · exact .fail _
    · next fd hfd =>
      have hclosed : p.fds fd = none := hos.fd fd hfd
      have hmmap : ((p.openFd fd .other).mmap).close fd = p.mmap :=
        congrArg Proc.mmap (close_openFd hclosed)
      dsimp only
      split
      · rw [close_openFd hclosed]
        exact .fail _
      · split
        · rw [close_openFd hclosed]
          exact .fail _
        · next mapping hmapping =>
          rw [hmmap]
          exact copyModule_effect hlinked hos hmapping

/-- **What holds of a module that is loaded**: it fits, and it is a builtin or the code of a library
of its own, which is what its memfd holds. -/
inductive LoadedModule.Runs (host : Host) (entry : List UInt8 → Option StrategyModule) (p : Proc) :
    LoadedModule → Prop
  | builtin {m : StrategyModule} : m ∈ host.builtins → m.Fits host →
      Runs host entry p { m := some m }
  | library {m : StrategyModule} {l : Library} {fd : ℕ} : l ∈ p.libraries → l.refs = 1 →
      l.path = procPath fd → p.fds fd = some (.memfd l.image) → entry l.image = some m →
      m.Fits host → Runs host entry p ⟨some m, some l.handle, some fd⟩

/-- **The invariant.** -/
structure LoadInv (host : Host) (entry : List UInt8 → Option StrategyModule) (s : Loading) :
    Prop where
  linked : Linked s.proc
  runs : ∀ x ∈ s.loaded, x.Runs host entry s.proc
  handles : s.proc.libraries.map Library.handle = s.loaded.filterMap LoadedModule.handle
  nodup : (s.proc.libraries.map Library.handle).Nodup
  memfds : ∀ fd content, s.proc.fds fd = some (.memfd content) →
    ∃ x ∈ s.loaded, x.memfd = some fd
  maps : s.proc.maps = 0

theorem LoadedModule.Runs.mono {x : LoadedModule} (h : x.Runs host entry p) {p' : Proc}
    (hlibraries : ∀ l ∈ p.libraries, l ∈ p'.libraries)
    (hfds : ∀ fd content, p.fds fd = some (.memfd content) → p'.fds fd = some (.memfd content)) :
    x.Runs host entry p' := by
  cases h with
  | builtin hm hfits => exact .builtin hm hfits
  | library hl hrefs hpath hfd hentry hfits =>
    exact .library (hlibraries _ hl) hrefs hpath (hfds _ _ hfd) hentry hfits

/-- Another descriptor of the process is opened or closed. -/
theorem LoadInv.other (h : LoadInv host entry s) {fds : ℕ → Option OpenFile}
    (hmemfds : ∀ fd content, fds fd = some (.memfd content) ↔
      s.proc.fds fd = some (.memfd content)) :
    LoadInv host entry { s with proc := { s.proc with fds } } := by
  refine ⟨fun l hl => ?_, fun x hx => ?_, h.handles, h.nodup, fun fd content hfd => ?_, h.maps⟩
  · obtain ⟨fd, hpath, hfd⟩ := h.linked l hl
    exact ⟨fd, hpath, (hmemfds fd _).2 hfd⟩
  · exact (h.runs x hx).mono (fun l hl => hl) fun fd content => (hmemfds fd content).2
  · exact h.memfds fd content ((hmemfds fd content).1 hfd)

theorem update_memfd_iff {fds : ℕ → Option OpenFile} {file : Option OpenFile}
    (hbefore : ∀ content, fds fd ≠ some (.memfd content))
    (hafter : ∀ content, file ≠ some (.memfd content)) (n : ℕ) (content : List UInt8) :
    Function.update fds fd file n = some (.memfd content) ↔ fds n = some (.memfd content) := by
  rcases eq_or_ne n fd with rfl | hne
  · rw [Function.update_self]
    exact iff_of_false (hafter content) (hbefore content)
  · rw [Function.update_of_ne hne]

/-- **A module is loaded.** -/
theorem LoadInv.module (h : LoadInv host entry s) {m : StrategyModule} {image : List UInt8}
    {handle : ℕ} (hmfd : s.proc.fds mfd = none)
    (hfresh : ∀ l ∈ s.proc.libraries, l.handle ≠ handle) (hentry : entry image = some m)
    (hfits : m.Fits host) : LoadInv host entry
      { proc := { s.proc.openFd mfd (.memfd image) with
          libraries := ⟨procPath mfd, handle, image, 1⟩ :: s.proc.libraries }
        loaded := ⟨some m, some handle, some mfd⟩ :: s.loaded } := by
  have hself : Function.update s.proc.fds mfd (some (OpenFile.memfd image)) mfd =
      some (.memfd image) := Function.update_self ..
  have hkept : ∀ fd content, s.proc.fds fd = some (.memfd content) →
      Function.update s.proc.fds mfd (some (OpenFile.memfd image)) fd = some (.memfd content) := by
    intro fd content hfd
    rcases eq_or_ne fd mfd with rfl | hne
    · rw [hmfd] at hfd
      cases hfd
    · rwa [Function.update_of_ne hne]
  refine ⟨fun l hl => ?_, fun x hx => ?_, ?_, ?_, fun fd content hfd => ?_, h.maps⟩
  · rcases List.mem_cons.1 hl with rfl | hl
    · exact ⟨mfd, rfl, hself⟩
    · obtain ⟨fd, hpath, hfd⟩ := h.linked l hl
      exact ⟨fd, hpath, hkept fd _ hfd⟩
  · rcases List.mem_cons.1 hx with rfl | hx
    · exact .library (l := ⟨procPath mfd, handle, image, 1⟩) List.mem_cons_self rfl rfl hself hentry
        hfits
    · exact (h.runs x hx).mono (fun l hl => List.mem_cons_of_mem _ hl) hkept
  · change handle :: s.proc.libraries.map Library.handle = _
    rw [h.handles]
    rfl
  · refine List.nodup_cons.2 ⟨fun hmem => ?_, h.nodup⟩
    obtain ⟨l, hl, heq⟩ := List.mem_map.1 hmem
    exact hfresh l hl heq
  · rcases eq_or_ne fd mfd with rfl | hne
    · exact ⟨_, List.mem_cons_self, rfl⟩
    · change Function.update s.proc.fds mfd _ fd = _ at hfd
      rw [Function.update_of_ne hne] at hfd
      obtain ⟨x, hx, hmemfd⟩ := h.memfds fd content hfd
      exact ⟨x, List.mem_cons_of_mem _ hx, hmemfd⟩

/-- **The step lemma.** -/
theorem LoadInv.step (h : LoadInv host entry s) {a : LoadStep} (ha : Lawful s a)
    (hstep : loadStep host entry s a = some t) : LoadInv host entry t := by
  cases a with
  | load spec os =>
    have hos : os.Possible s.proc := ha
    obtain rfl := Option.some.inj hstep
    have heffect : LoadEffect host entry os s.proc (loadStrategy host entry os spec s.proc) :=
      loadStrategy_effect h.linked hos
    generalize loadStrategy host entry os spec s.proc = r at heffect
    cases heffect with
    | failed err out => exact h
    | builtin hm hfits =>
      refine ⟨h.linked, fun x hx => ?_, ?_, h.nodup, fun fd content hfd => ?_, h.maps⟩
      · rcases List.mem_cons.1 hx with rfl | hx
        · exact .builtin hm hfits
        · exact h.runs x hx
      · exact h.handles.trans (List.filterMap_cons_none rfl).symm
      · obtain ⟨x, hx, hmemfd⟩ := h.memfds fd content hfd
        exact ⟨x, List.mem_cons_of_mem _ hx, hmemfd⟩
    | module hmapping hverdict hhandle hmfd hentry hfits =>
      exact h.module (hos.memfd _ hmfd) (hos.handle _ hhandle) hentry hfits
  | opened fd =>
    simp only [loadStep] at hstep
    split at hstep
    · next hclosed =>
      obtain rfl := Option.some.inj hstep
      exact h.other (update_memfd_iff (by simp [hclosed]) (by simp))
    · cases hstep
  | closed fd =>
    simp only [loadStep] at hstep
    split at hstep
    · next hother =>
      obtain rfl := Option.some.inj hstep
      exact h.other (update_memfd_iff (by simp [hother]) (by simp))
    · cases hstep

/-- **The run lemma.** -/
theorem loadInv_of_reachable (hs : (loading host entry).ReachableWhen Lawful s) :
    LoadInv host entry s := by
  refine hs.invariant ?_ fun s a t _ ha hstep h => h.step ha hstep
  rintro _ ⟨fds, hfds, rfl⟩
  exact ⟨fun l hl => absurd hl List.not_mem_nil, fun x hx => absurd hx List.not_mem_nil, rfl, .nil,
    fun fd content hfd => absurd hfd (hfds fd content), rfl⟩

end Steps

/-- A shared object without program headers. -/
def bareObject : List UInt8 :=
  [0x7f, 0x45, 0x4c, 0x46, 2, 1, 1, 0, 0, 0, 0, 0, 0, 0, 0, 0, 3, 0, 62, 0, 1, 0, 0, 0] ++
    List.replicate 40 0

/-- A host of small numbers, and a module built like it. -/
def bareHost : Host := ⟨[64], [8], 0, [], by decide⟩

def bareModule : StrategyModule :=
  ⟨1, execAbiHash [64] [8], 0, "dummy".toList, "unknown".toList, true, true, true⟩

def bareEntry (image : List UInt8) : Option StrategyModule :=
  if image = bareObject then some bareModule else none

/-- How the calls for `bareObject` go, with a copy in two pieces. -/
def bareOutcomes : Outcomes where
  fd := some 3
  size := some 64
  mapping := some (.ofFile bareObject (by decide))
  memfd := some 3
  writes := [40, 24]
  copy := bareObject
  handle := some 7
  dlerror := []

end Exec

end LowLatencyPipeline

import SkUtils.Library.CheckedLoop
import SkUtils.Library.InputStream
import SkUtils.Strings.ExpandUser
import SkUtils.Strings.Formatter

/-!
`combine_files.cpp`: the files below the listed paths are collected, the output is opened,
and the collected files are copied into it line by line. What the output file holds while
it is written depends on when its stream flushes.
-/

namespace SkUtils.Files.CombineFiles

open SkUtils.Library.CheckedLoop SkUtils.Library.InputStream
open SkUtils.Strings.StringUtils SkUtils.Strings.Formatter SkUtils.Strings.ExpandUser

/-- What `status` says of a path, with links followed. A file is told from another by its
inode. -/
inductive Node
  | missing
  /-- `status` throws: a loop of links, a directory that may not be searched. -/
  | failing
  /-- `none` where `directory_iterator` throws. -/
  | directory (entries : Option (List Str))
  | file (inode : Nat)
deriving DecidableEq

inductive File
  | regular (text : Str)
  /-- A pipe or a device and what it gives each of its readers before its end; `none` where
  that does not come, as in a pipe that nobody writes to. -/
  | special (text : Option Str)
deriving DecidableEq

/-- How opening a path for output goes. A pipe that nobody reads blocks. -/
inductive Opening
  | opened
  | refused
  | blocked
deriving DecidableEq

/-- `path / name`. -/
def join (path name : Str) : Str :=
  if path = [] ∨ path.getLast? = some '/' then path ++ name else path ++ '/' :: name

/-- The files before the call. -/
structure FileSystem where
  node : Str → Node
  file : Nat → File
  readable : Str → Bool
  writing : Str → Opening
  writes : ∀ path, writing path ≠ .refused →
    node path = .missing ∨ ∃ inode, node path = .file inode

/-- An exception of `std::filesystem`, the one of `std::string(home_dir)`, and a call that
does not come back. -/
inductive Failure
  | filesystemError
  | logicError
  | endless
deriving DecidableEq

def filename (path : Str) : Str :=
  path.rtakeWhile (· ≠ '/')

/-- `path.extension()`: nothing for `.` and `..` and where the only dot comes first. -/
def extension (path : Str) : Str :=
  let name := filename path
  let tail := name.rtakeWhile (· ≠ '.')
  if name ≠ ['.', '.'] ∧ tail.length + 1 < name.length then '.' :: tail else []

def skipped_dirs : List Str :=
  [".git".toList, "build".toList]

/-- `collect_files`, cut off after `fuel` levels. -/
def collect_files (fs : FileSystem) (ext : Str) (no_skip : Bool) :
    Nat → List Str → Str → Except Failure (List Str)
  | 0, _, _ => throw .endless
  | fuel + 1, files, path =>
      match fs.node path with
      | .missing => return files
      | .failing => throw .filesystemError
      | .directory entries =>
          if !no_skip && skipped_dirs.contains (filename path) then return files
          else
            match entries with
            | none => throw .filesystemError
            | some entries =>
                entries.foldlM
                  (fun files entry => collect_files fs ext no_skip fuel files (join path entry))
                  files
      | .file _ => return if extension path = ext then files ++ [path] else files

/-- The file that the output stream writes. -/
inductive Target
  | existing (inode : Nat)
  | created
deriving DecidableEq

/-- `std::ofstream out(output, std::ios::out)`, which truncates a regular file. -/
def openOutput (fs : FileSystem) (output : Str) : Except Failure (Option Target) :=
  match fs.writing output with
  | .refused => return none
  | .blocked => throw .endless
  | .opened =>
      match fs.node output with
      | .file inode => return some (.existing inode)
      | _ => return some .created

/-- What a file holds after `written` has been inserted into `out`, of which `flushed` says
how much has reached the file. -/
def currentContents (flushed : Nat → Nat) (isOutput : Bool) (text written : Str) : Str :=
  if isOutput then written.take (flushed written.length) else text

def fileBegin (f : Str) : Str :=
  format "<<<<<<<<<< [FILE-BEGIN] '\x7b\x7d' <<<<<<<<<<\n\n".toList [f]

def fileEnd (f : Str) : Str :=
  format "\n>>>>>>>>>> [FILE-END] '\x7b\x7d' >>>>>>>>>>\n\n\n".toList [f]

/-- The loop around `std::getline`, cut off after `fuel` rounds. -/
def copyLines (contents : Str → Str) : Nat → Stream → Str → Except Failure Str
  | 0, _, _ => throw .endless
  | fuel + 1, s, written =>
      let (line, s') := s.getline '\n' (contents written)
      if s'.failbit then return written
      else copyLines contents fuel s' (written ++ line ++ ['\n'])

/-- What a reader of the file sees. -/
def reading (fs : FileSystem) (flushed : Nat → Nat) (target : Target) (inode : Nat) :
    Except Failure (Str → Str) :=
  match fs.file inode with
  | .regular text => return currentContents flushed (decide (target = .existing inode)) text
  | .special (some text) => return fun _ => text
  | .special none => throw .endless

def copyFile (fs : FileSystem) (flushed : Nat → Nat) (target : Target) (fuel : Nat)
    (written f : Str) : Except Failure Str :=
  match fs.node f with
  | .file inode =>
      if fs.readable f then do
        let contents ← reading fs flushed target inode
        let copied ← copyLines contents fuel .opened (written ++ fileBegin f)
        return copied ++ fileEnd f
      else return written
  | _ => return written

inductive Outcome
  | cannotCreate
  | combined (text : Str)

/-- A round of the loop that fills `files`. -/
def collectListed (home_dir : Option Str) (fs : FileSystem) (ext : Str) (no_skip : Bool)
    (depth : Nat) (files : List Str) (p : Str) : Except Failure (List Str) :=
  match expandUser home_dir p with
  | .error .logicError => throw .logicError
  | .ok path => collect_files fs ext no_skip depth files path

/-- The list `files` of `combine_files`. -/
def collected (home_dir : Option Str) (fs : FileSystem) (paths : List Str) (ext : Str)
    (no_skip : Bool) (depth : Nat) : Except Failure (List Str) :=
  paths.foldlM (collectListed home_dir fs ext no_skip depth) []

def combine_files (home_dir : Option Str) (fs : FileSystem) (paths : List Str)
    (output ext : Str) (no_skip : Bool) (flushed : Nat → Nat) (depth fuel : Nat) :
    Except Failure Outcome := do
  let files ← collected home_dir fs paths ext no_skip depth
  match ← openOutput fs output with
  | none => return .cannotCreate
  | some target => return .combined (← files.foldlM (copyFile fs flushed target fuel) [])

section Collection

variable {fs : FileSystem} {no_skip : Bool} {ext path f : Str} {entries : List Str}

/-- A directory with this path is not passed over. -/
def Entered (no_skip : Bool) (path : Str) : Prop :=
  no_skip = true ∨ filename path ∉ skipped_dirs

/-- `f` is `n` entries of directories below a path, none of which is skipped. -/
inductive Leads (fs : FileSystem) (no_skip : Bool) (f : Str) : Nat → Str → Prop
  | here : Leads fs no_skip f 0 f
  | entry {path name : Str} {entries : List Str} {n : Nat}
      (directory : fs.node path = .directory (some entries))
      (entered : Entered no_skip path) (mem : name ∈ entries)
      (below : Leads fs no_skip f n (join path name)) : Leads fs no_skip f (n + 1) path

/-- The visit of `f` ends with an exception. -/
def Throws (fs : FileSystem) (no_skip : Bool) (f : Str) : Prop :=
  fs.node f = .failing ∨ fs.node f = .directory none ∧ Entered no_skip f

/-- The walk from a path goes less than `fuel` deep and meets no exception. -/
def Fits (fs : FileSystem) (no_skip : Bool) (fuel : Nat) (path : Str) : Prop :=
  ∀ n f, Leads fs no_skip f n path → n < fuel ∧ ¬ Throws fs no_skip f

/-- The files with the extension that the walk from a path comes to. -/
def Collects (fs : FileSystem) (no_skip : Bool) (ext path f : Str) : Prop :=
  extension f = ext ∧ ∃ n inode, Leads fs no_skip f n path ∧ fs.node f = .file inode

theorem skip_iff :
    (!no_skip && skipped_dirs.contains (filename path)) = true ↔ ¬ Entered no_skip path := by
  unfold Entered
  cases no_skip <;> simp

theorem fits_succ {fuel : Nat} :
    Fits fs no_skip (fuel + 1) path ↔
      ¬ Throws fs no_skip path ∧
        ∀ entries, fs.node path = .directory (some entries) → Entered no_skip path →
          ∀ entry ∈ entries, Fits fs no_skip fuel (join path entry) := by
  constructor
  · intro h
    refine ⟨(h 0 path .here).2, fun entries hnode hentered entry hentry n f hleads => ?_⟩
    obtain ⟨hlength, hthrows⟩ := h (n + 1) f (.entry hnode hentered hentry hleads)
    exact ⟨Nat.lt_of_succ_lt_succ hlength, hthrows⟩
  · rintro ⟨hthrows, hentries⟩ n f hleads
    cases hleads with
    | here => exact ⟨Nat.succ_pos fuel, hthrows⟩
    | entry directory entered mem below =>
        obtain ⟨hlength, hbelow⟩ := hentries _ directory entered _ mem _ f below
        exact ⟨Nat.succ_lt_succ hlength, hbelow⟩

theorem collects_directory (hnode : fs.node path = .directory (some entries))
    (hentered : Entered no_skip path) :
    Collects fs no_skip ext path f ↔
      ∃ entry ∈ entries, Collects fs no_skip ext (join path entry) f := by
  constructor
  · rintro ⟨hext, n, inode, hleads, hfile⟩
    cases hleads with
    | here =>
        rw [hnode] at hfile
        cases hfile
    | entry directory _ mem below =>
        obtain rfl : entries = _ := by simpa [hnode] using directory
        exact ⟨_, mem, hext, _, inode, below, hfile⟩
  · rintro ⟨entry, hentry, hext, n, inode, hleads, hfile⟩
    exact ⟨hext, n + 1, inode, .entry hnode hentered hentry hleads, hfile⟩

theorem collects_leaf
    (h : ∀ entries, fs.node path = .directory (some entries) → ¬ Entered no_skip path) :
    Collects fs no_skip ext path f ↔
      f = path ∧ extension path = ext ∧ ∃ inode, fs.node path = .file inode := by
  constructor
  · rintro ⟨hext, n, inode, hleads, hfile⟩
    cases hleads with
    | here => exact ⟨rfl, hext, inode, hfile⟩
    | entry directory entered => exact absurd entered (h _ directory)
  · rintro ⟨rfl, hext, inode, hfile⟩
    exact ⟨hext, 0, inode, .here, hfile⟩

theorem collect_of_fits {fuel : Nat} (h : Fits fs no_skip fuel path) :
    Appends (fun files => collect_files fs ext no_skip fuel files path)
      (Collects fs no_skip ext path) := by
  induction fuel generalizing path with
  | zero => exact absurd (h 0 path .here).1 (Nat.lt_irrefl 0)
  | succ fuel ih =>
      obtain ⟨hthrows, hentries⟩ := fits_succ.mp h
      simp only [collect_files]
      cases hnode : fs.node path with
      | failing => exact absurd (.inl hnode) hthrows
      | missing =>
          refine appends_nil fun f hf => ?_
          obtain ⟨-, -, inode, hfile⟩ := (collects_leaf (by simp [hnode])).mp hf
          rw [hnode] at hfile
          cases hfile
      | file inode =>
          have hleaf (f : Str) :
              Collects fs no_skip ext path f ↔ f = path ∧ extension path = ext := by
            rw [collects_leaf (by simp [hnode])]
            simp [hnode]
          by_cases hext : extension path = ext
          · simp only [hext, if_true]
            exact ⟨[path], fun _ => rfl, fun f => by simp [hleaf, hext]⟩
          · simp only [hext, if_false]
            exact appends_nil fun f hf => hext ((hleaf f).mp hf).2
      | directory listing =>
          by_cases hentered : Entered no_skip path
          · cases listing with
            | none => exact absurd (.inr ⟨hnode, hentered⟩) hthrows
            | some entries =>
                simp only [skip_iff, hentered, not_true, if_false]
                refine (appends_foldlM fun entry hentry =>
                  ih (hentries entries hnode hentered entry hentry)).congr fun f => ?_
                exact (collects_directory hnode hentered).symm
          · simp only [skip_iff, hentered, not_false_iff, if_true]
            refine appends_nil fun f hf => ?_
            obtain ⟨-, -, inode, hfile⟩ := (collects_leaf fun _ _ => hentered).mp hf
            rw [hnode] at hfile
            cases hfile

theorem fits_of_collect {fuel : Nat} {files files' : List Str}
    (h : collect_files fs ext no_skip fuel files path = .ok files') :
    Fits fs no_skip fuel path := by
  induction fuel generalizing path files files' with
  | zero => cases h
  | succ fuel ih =>
      rw [collect_files] at h
      rw [fits_succ]
      cases hnode : fs.node path with
      | failing =>
          rw [hnode] at h
          cases h
      | missing => exact ⟨by simp [Throws, hnode], nofun⟩
      | file inode => exact ⟨by simp [Throws, hnode], nofun⟩
      | directory listing =>
          by_cases hentered : Entered no_skip path
          · rw [hnode] at h
            simp only [skip_iff, hentered, not_true, if_false] at h
            cases listing with
            | none => cases h
            | some entries =>
                refine ⟨by simp [Throws, hnode], fun entries' hsame _ entry hentry => ?_⟩
                obtain rfl : entries = entries' := by simpa using hsame
                obtain ⟨_, _, hvisit⟩ := ok_of_foldlM_ok h entry hentry
                exact ih hvisit
          · exact ⟨by simp [Throws, hnode, hentered], fun _ _ h => absurd h hentered⟩

/-- Every listed path has a walk below it that fits. -/
theorem appends_collectListed {home_dir : Option Str} {depth : Nat} {p : Str}
    (hpath : expandUser home_dir p = .ok path) (h : Fits fs no_skip depth path) :
    Appends (fun files => collectListed home_dir fs ext no_skip depth files p)
      (Collects fs no_skip ext path) := by
  simp only [collectListed, hpath]
  exact collect_of_fits h

theorem fits_of_collectListed {home_dir : Option Str} {depth : Nat} {p : Str}
    {files files' : List Str}
    (h : collectListed home_dir fs ext no_skip depth files p = .ok files') :
    ∃ path, expandUser home_dir p = .ok path ∧ Fits fs no_skip depth path := by
  unfold collectListed at h
  cases hpath : expandUser home_dir p with
  | error fault =>
      rw [hpath] at h
      cases h
  | ok path =>
      rw [hpath] at h
      exact ⟨path, rfl, fits_of_collect h⟩

/-- `f` is a file with the extension that the walk from a listed path comes to. -/
def Listed (home_dir : Option Str) (fs : FileSystem) (paths : List Str) (ext : Str)
    (no_skip : Bool) (f : Str) : Prop :=
  ∃ p ∈ paths, ∃ path, expandUser home_dir p = .ok path ∧ Collects fs no_skip ext path f

/-- Every listed path can be expanded, and the walk from it fits. -/
def Walks (home_dir : Option Str) (fs : FileSystem) (paths : List Str) (no_skip : Bool)
    (depth : Nat) : Prop :=
  ∀ p ∈ paths, ∃ path, expandUser home_dir p = .ok path ∧ Fits fs no_skip depth path

theorem collected_iff {home_dir : Option Str} {paths : List Str} {depth : Nat} :
    (∃ files, collected home_dir fs paths ext no_skip depth = .ok files) ↔
      Walks home_dir fs paths no_skip depth := by
  constructor
  · rintro ⟨files, hfiles⟩ p hp
    obtain ⟨_, _, hround⟩ := ok_of_foldlM_ok hfiles p hp
    exact fits_of_collectListed hround
  · intro h
    choose! path hpath hfits using h
    obtain ⟨found, hrun, -⟩ := appends_foldlM fun p hp =>
      @appends_collectListed fs no_skip ext _ home_dir depth p (hpath p hp) (hfits p hp)
    exact ⟨_, hrun []⟩

theorem mem_collected {home_dir : Option Str} {paths files : List Str} {depth : Nat}
    (h : collected home_dir fs paths ext no_skip depth = .ok files) :
    f ∈ files ↔ Listed home_dir fs paths ext no_skip f := by
  have hwalks := collected_iff.mp ⟨files, h⟩
  choose! path hpath hfits using hwalks
  obtain ⟨found, hrun, hmem⟩ := appends_foldlM fun p hp =>
    @appends_collectListed fs no_skip ext _ home_dir depth p (hpath p hp) (hfits p hp)
  obtain rfl : files = found := Except.ok.inj (h.symm.trans (hrun []))
  rw [hmem]
  constructor
  · rintro ⟨p, hp, hcollects⟩
    exact ⟨p, hp, path p, hpath p hp, hcollects⟩
  · rintro ⟨p, hp, path', hpath', hcollects⟩
    obtain rfl : path p = path' := Except.ok.inj ((hpath p hp).symm.trans hpath')
    exact ⟨p, hp, hcollects⟩

end Collection

section Copying

variable {fs : FileSystem} {flushed : Nat → Nat} {target : Target}

theorem copyLines_eq {contents : Str} {s : Stream} {pending : List Str} {fuel : Nat}
    (h : Pending '\n' contents s pending) (hfuel : pending.length < fuel) (written : Str) :
    copyLines (fun _ => contents) fuel s written =
      .ok (written ++ pending.flatMap (· ++ ['\n'])) := by
  induction fuel generalizing s pending written with
  | zero => cases hfuel
  | succ fuel ih =>
      cases pending with
      | nil =>
          obtain ⟨s', hline, hfailed⟩ := h.getline_nil
          simp [copyLines, hline, hfailed]
      | cons line pending =>
          obtain ⟨s', hline, hpending⟩ := h.getline_cons
          have hrest := ih hpending (Nat.lt_of_succ_lt_succ hfuel) (written ++ line ++ ['\n'])
          simpa [copyLines, hline, hpending.failbit] using hrest

/-- What a file holds before the call; `none` where its end does not come. -/
def File.text : File → Option Str
  | .regular text => some text
  | .special text => text

/-- The part of the output that is about `f`, when `f` holds what it held before. -/
def copyOf (fs : FileSystem) (f : Str) : Str :=
  match fs.node f with
  | .file inode =>
      if fs.readable f then
        fileBegin f ++ terminated '\n' ((fs.file inode).text.getD []) ++ fileEnd f
      else []
  | _ => []

/-- The lines of a file. -/
def lineCount (fs : FileSystem) (f : Str) : Nat :=
  match fs.node f with
  | .file inode => (lines '\n' ((fs.file inode).text.getD [])).length
  | _ => 0

/-- A reader of `f` comes to its end. -/
def Ends (fs : FileSystem) (f : Str) : Prop :=
  ∀ inode, fs.node f = .file inode → fs.readable f = true → fs.file inode ≠ .special none

theorem reading_eq {inode : Nat} (hother : target ≠ .existing inode)
    (hends : fs.file inode ≠ .special none) :
    reading fs flushed target inode = .ok fun _ => (fs.file inode).text.getD [] := by
  unfold reading
  cases hfile : fs.file inode with
  | regular text =>
      rw [decide_eq_false hother]
      rfl
  | special text =>
      cases text with
      | none => exact absurd hfile hends
      | some text => rfl

theorem copyFile_eq {fuel : Nat} {f : Str} (hfuel : lineCount fs f < fuel)
    (hother : ∀ inode, fs.node f = .file inode → target ≠ .existing inode) (hends : Ends fs f)
    (written : Str) :
    copyFile fs flushed target fuel written f = .ok (written ++ copyOf fs f) := by
  unfold copyFile copyOf
  unfold lineCount at hfuel
  cases hnode : fs.node f with
  | missing => simp
  | failing => simp
  | directory entries => simp
  | file inode =>
      rw [hnode] at hfuel
      cases hreadable : fs.readable f with
      | false => simp
      | true =>
          simp only [reading_eq (hother inode hnode) (hends inode hnode hreadable), if_true,
            ok_bind]
          rw [copyLines_eq pending_opened hfuel]
          simp [terminated]

theorem ends_of_copyFile {fuel : Nat} {f written written' : Str}
    (h : copyFile fs flushed target fuel written f = .ok written') : Ends fs f := by
  intro inode hnode hreadable hspecial
  rw [copyFile, hnode] at h
  simp only [hreadable, if_true, reading, hspecial] at h
  cases h

theorem foldlM_copyFile {fuel : Nat} {files : List Str} (hfuel : ∀ f ∈ files, lineCount fs f < fuel)
    (hother : ∀ f ∈ files, ∀ inode, fs.node f = .file inode → target ≠ .existing inode)
    (hends : ∀ f ∈ files, Ends fs f) (written : Str) :
    files.foldlM (copyFile fs flushed target fuel) written =
      .ok (written ++ files.flatMap (copyOf fs)) := by
  induction files generalizing written with
  | nil => simp
  | cons f files ih =>
      obtain ⟨hfirst, hrest⟩ := List.forall_mem_cons.mp hfuel
      obtain ⟨hother, hothers⟩ := List.forall_mem_cons.mp hother
      obtain ⟨hend, hends⟩ := List.forall_mem_cons.mp hends
      rw [List.foldlM_cons, copyFile_eq hfirst hother hend]
      simp [ih hrest hothers hends]

theorem exists_fuel (fs : FileSystem) (files : List Str) :
    ∃ fuel, ∀ f ∈ files, lineCount fs f < fuel := by
  induction files with
  | nil => exact ⟨0, by simp⟩
  | cons f files ih =>
      obtain ⟨fuel, hfuel⟩ := ih
      refine ⟨lineCount fs f + 1 + fuel, List.forall_mem_cons.mpr ⟨by omega, fun f' hf' => ?_⟩⟩
      have := hfuel f' hf'
      omega

end Copying

/-- The call comes back without an exception, no collected file is the output, and the
output is a copy of what every collected file held before. -/
def NeverReadsOutput (home_dir : Option Str) (fs : FileSystem) (paths : List Str)
    (output ext : Str) (no_skip : Bool) (flushed : Nat → Nat) : Prop :=
  ∃ depth fuel files target, collected home_dir fs paths ext no_skip depth = .ok files ∧
    openOutput fs output = .ok target ∧
    (∀ f ∈ files, ∀ inode, fs.node f = .file inode → target ≠ some (.existing inode)) ∧
    combine_files home_dir fs paths output ext no_skip flushed depth fuel =
      .ok (if target = none then .cannotCreate else .combined (files.flatMap (copyOf fs)))

theorem openOutput_existing {fs : FileSystem} {output : Str} {inode : Nat} :
    openOutput fs output = .ok (some (.existing inode)) ↔
      fs.writing output = .opened ∧ fs.node output = .file inode := by
  unfold openOutput
  cases hwriting : fs.writing output with
  | refused => simp
  | blocked => simp [throw, throwThe, MonadExceptOf.throw]
  | opened => cases hnode : fs.node output <;> simp

theorem openOutput_ok {fs : FileSystem} {output : Str} (h : fs.writing output ≠ .blocked) :
    ∃ target, openOutput fs output = .ok target ∧
      (target ≠ none ↔ fs.writing output = .opened) := by
  unfold openOutput
  cases hwriting : fs.writing output with
  | refused => exact ⟨none, rfl, by simp⟩
  | blocked => exact absurd hwriting h
  | opened => cases fs.node output <;> exact ⟨_, rfl, by simp⟩

theorem never_reads_output_iff (home_dir : Option Str) (fs : FileSystem) (paths : List Str)
    (output ext : Str) (no_skip : Bool) (flushed : Nat → Nat) :
    NeverReadsOutput home_dir fs paths output ext no_skip flushed ↔
      (∃ depth, Walks home_dir fs paths no_skip depth) ∧ fs.writing output ≠ .blocked ∧
        ∀ f, Listed home_dir fs paths ext no_skip f → fs.writing output = .opened →
          fs.node f ≠ fs.node output ∧ Ends fs f := by
  constructor
  · rintro ⟨depth, fuel, files, target, hfiles, htarget, hother, hcombine⟩
    have hblocked : fs.writing output ≠ .blocked := by
      intro hblocked
      rw [openOutput, hblocked] at htarget
      cases htarget
    refine ⟨⟨depth, collected_iff.mp ⟨files, hfiles⟩⟩, hblocked, fun f hlisted hopened => ?_⟩
    have hmem := (mem_collected hfiles).mpr hlisted
    constructor
    · intro hsame
      obtain ⟨-, -, -, -, -, -, inode, -, hfile⟩ := hlisted
      have hexisting := openOutput_existing.mpr ⟨hopened, hsame.symm.trans hfile⟩
      exact hother f hmem inode hfile (Except.ok.inj (htarget.symm.trans hexisting))
    · obtain ⟨_, htarget', hopens⟩ := openOutput_ok hblocked
      obtain rfl := Except.ok.inj (htarget.symm.trans htarget')
      obtain ⟨target, rfl⟩ := Option.ne_none_iff_exists'.mp (hopens.mpr hopened)
      rw [combine_files, hfiles, ok_bind, htarget, ok_bind] at hcombine
      obtain ⟨text, hcopied, -⟩ := bind_eq_ok.mp hcombine
      obtain ⟨_, _, hround⟩ := ok_of_foldlM_ok hcopied f hmem
      exact ends_of_copyFile hround
  · rintro ⟨⟨depth, hwalks⟩, hblocked, hlisted⟩
    obtain ⟨files, hfiles⟩ : ∃ files, collected home_dir fs paths ext no_skip depth = .ok files :=
      collected_iff.mpr hwalks
    obtain ⟨target, htarget, hopens⟩ := openOutput_ok hblocked
    obtain ⟨fuel, hfuel⟩ := exists_fuel fs files
    have hother : ∀ f ∈ files, ∀ inode, fs.node f = .file inode →
        target ≠ some (.existing inode) := by
      rintro f hmem inode hfile rfl
      obtain ⟨hopened, hnode⟩ := openOutput_existing.mp htarget
      exact (hlisted f ((mem_collected hfiles).mp hmem) hopened).1 (hfile.trans hnode.symm)
    refine ⟨depth, fuel, files, target, hfiles, htarget, hother, ?_⟩
    rw [combine_files, hfiles, ok_bind, htarget, ok_bind]
    cases target with
    | none => rfl
    | some target =>
        have hcopied := @foldlM_copyFile fs flushed target fuel files hfuel
          (fun f hmem inode hfile hsame => hother f hmem inode hfile (congrArg some hsame))
          (fun f hmem => (hlisted f ((mem_collected hfiles).mp hmem) (hopens.mp nofun)).2) []
        simp [hcopied]

/-- A directory `.` in which an earlier run has left its output. -/
def withEarlierOutput : FileSystem where
  node path :=
    if path = ".".toList then .directory (some ["out.txt".toList])
    else if path = "./out.txt".toList ∨ path = "out.txt".toList then .file 0
    else .missing
  file _ := .regular "text\n".toList
  readable _ := true
  writing path := if path = ".".toList then .refused else .opened
  writes := by
    intro path h
    by_cases hroot : path = ".".toList
    · rw [if_pos hroot] at h
      exact absurd rfl h
    · rw [if_neg hroot]
      split
      · exact .inr ⟨0, rfl⟩
      · exact .inl rfl

/-- The same command is run a second time. -/
theorem reads_output :
    ¬ ∀ (home_dir : Option Str) (fs : FileSystem) (paths : List Str) (output ext : Str)
      (no_skip : Bool) (flushed : Nat → Nat),
      NeverReadsOutput home_dir fs paths output ext no_skip flushed := by
  intro h
  obtain ⟨depth, fuel, files, target, hfiles, htarget, hother, -⟩ :=
    h none withEarlierOutput [".".toList] "out.txt".toList ".txt".toList false id
  have hleads : Leads withEarlierOutput false "./out.txt".toList 1 ".".toList :=
    @Leads.entry withEarlierOutput false _ ".".toList "out.txt".toList ["out.txt".toList] 0
      rfl (.inr (by decide)) List.mem_cons_self .here
  have hlisted : Listed none withEarlierOutput [".".toList] ".txt".toList false
      "./out.txt".toList :=
    ⟨_, List.mem_cons_self, ".".toList, rfl, by decide, 1, 0, hleads, rfl⟩
  have hopen : openOutput withEarlierOutput "out.txt".toList = .ok (some (.existing 0)) :=
    openOutput_existing.mpr ⟨rfl, rfl⟩
  exact hother _ ((mem_collected hfiles).mpr hlisted) 0 rfl
    (Except.ok.inj (htarget.symm.trans hopen))

end SkUtils.Files.CombineFiles

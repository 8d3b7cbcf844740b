import Ambar.Format.FileName
import Ambar.Format.WriteBatch
import Ambar.Lib.Program
import Ambar.Version.Edit
import Mathlib.Logic.Function.Basic

/-!
# The file system under the engine

The calls of `src/file.hpp` that change a database's directory or read it. A file is the
pieces that appends have put into it, those a sync has covered first. Any call may fail:
a failed append may have written all of its piece, a part of it or nothing, a failed
rename or removal may have taken effect or not, and a `path_type` that fails answers that
nothing is there (`src/file.cpp`, lines 620–630).

Programs over these calls stop wherever the process does.

* `Performs`: what a call may answer and do.
* `Stops`: what is left of the files of a process that ends.
* `Rules`: an invariant and rules for calls that keep it; `Rules.keeps_write` and its like are
  what the calls of a program that keeps the rules do.
-/

namespace Ambar.Storage

open Lib

/-! ## Files -/

/-- What one append writes: a record of a manifest, a record of a log, an entry of a table
    or a text. `part` stands for bytes that read as none of these. -/
inductive Piece where
  | record (edit : VersionEdit)
  | batch (record : LogRecord)
  | entry (e : Entry)
  | text (t : List Char)
  | part

/-- A file's pieces, up to its last sync and after it. -/
structure File where
  synced : List Piece
  unsynced : List Piece

/-- What a reader of the file finds. -/
def File.pieces (f : File) : List Piece := f.synced ++ f.unsynced

/-- A file of the database's directory, or of its `lost` directory. -/
inductive Path where
  | db (name : FileName)
  | lost (name : FileName)
deriving DecidableEq

/-- `enum class PathType` (`src/file.hpp`). -/
inductive PathType where
  | missing
  | file
  | directory
  | other
deriving DecidableEq

abbrev Disk := Path → Option File

namespace Disk

/-- The file changed, if it is there. -/
def modify (d : Disk) (p : Path) (f : File → File) : Disk := Function.update d p ((d p).map f)

def append (d : Disk) (p : Path) (piece : Piece) : Disk :=
  d.modify p fun f => { f with unsynced := f.unsynced ++ [piece] }

/-- The next `n` pieces synced. -/
def sync (d : Disk) (p : Path) (n : ℕ) : Disk :=
  d.modify p fun f => ⟨f.synced ++ f.unsynced.take n, f.unsynced.drop n⟩

def truncate (d : Disk) (p : Path) : Disk := Function.update d p (some ⟨[], []⟩)

def remove (d : Disk) (p : Path) : Disk := Function.update d p none

def rename (d : Disk) (src dst : Path) (f : File) : Disk :=
  Function.update (Function.update d src none) dst (some f)

end Disk

/-! ## Calls -/

/-- The calls that may change the directory and answer a status. -/
inductive Change where
  | createDirectory
  | createLost
  | lockFile
  | openWrite (p : Path)
  | append (p : Path) (piece : Piece)
  | sync (p : Path)
  | close (p : Path)
  | rename (src dst : Path)
  | syncDirectory
  | remove (p : Path)

inductive Call where
  | change (change : Change)
  | lostType
  | pathType (p : Path)
  | listDirectory
  | fileSize (p : Path)
  | read (p : Path)

/-- What a call answers. A reader that could open the file is given what it could read, and the
    failure that ended it if there was one. -/
abbrev Answer : Call → Type
  | .change _ => Except Status Unit
  | .lostType | .pathType _ => PathType
  | .listDirectory => Except Status (List FileName)
  | .fileSize _ => Except Status ℕ
  | .read _ => Except Status (List Piece × Option Status)

/-- What a change may answer and do. -/
def Change.Does : Change → Disk → Except Status Unit → Disk → Prop
  | .lockFile, d, _, d' =>
    d' = d ∨ (d (.db lockFileName) = none ∧ d' = d.truncate (.db lockFileName))
  | .openWrite p, d, r, d' => d' = d.truncate p ∨ (r ≠ .ok () ∧ d' = d)
  | .append p piece, d, r, d' =>
    d' = d.append p piece ∨ (r ≠ .ok () ∧ (d' = d ∨ d' = d.append p .part))
  | .sync p, d, r, d' =>
    ∃ n, d' = d.sync p n ∧ (r = .ok () → ∀ f, d p = some f → f.unsynced.length ≤ n)
  | .rename src dst, d, r, d' =>
    (∃ f, d src = some f ∧ d' = d.rename src dst f) ∨ (r ≠ .ok () ∧ d' = d)
  | .remove p, d, r, d' => d' = d.remove p ∨ (r ≠ .ok () ∧ d' = d)
  | .createDirectory, d, _, d' | .createLost, d, _, d' | .close _, d, _, d' | .syncDirectory, d, _, d' =>
    d' = d

/-- The names of the files in the directory. What else is there has no file name of the
    engine. -/
def Lists (d : Disk) (names : List FileName) : Prop :=
  ∀ name, (parseFileName name).isSome → (name ∈ names ↔ (d (.db name)).isSome)

/-- What a call may answer and do. -/
def Performs : (c : Call) → Disk → Answer c → Disk → Prop
  | .change c, d, r, d' => c.Does d r d'
  | .lostType, d, _, d' => d' = d
  | .pathType p, d, r, d' => d' = d ∧ (r ≠ .missing → (d p).isSome)
  | .listDirectory, d, r, d' => d' = d ∧ ∀ names, r = .ok names → Lists d names
  | .fileSize p, d, r, d' => d' = d ∧ ∀ n, r = .ok n → ∃ f, d p = some f ∧ n = f.pieces.length
  | .read p, d, r, d' => d' = d ∧ ∀ pieces failure, r = .ok (pieces, failure) →
      ∃ f, d p = some f ∧ pieces <+: f.pieces ∧ (failure = none → pieces = f.pieces)

/-- The files once a process has ended: of what was not synced, some of it at the start is
    left, and perhaps a part of the next piece. -/
def Stops (d d' : Disk) : Prop :=
  ∀ p, (d p = none ∧ d' p = none) ∨ ∃ f n, d p = some f ∧
    (d' p = some ⟨f.synced, f.unsynced.take n⟩ ∨
      n < f.unsynced.length ∧ d' p = some ⟨f.synced, f.unsynced.take n ++ [.part]⟩)

/-! ## What a change leaves alone -/

namespace Disk

variable {d : Disk} {p q : Path}

theorem modify_of_ne (f : File → File) (h : q ≠ p) : d.modify p f q = d q :=
  Function.update_of_ne h _ _

theorem modify_self (d : Disk) (p : Path) (f : File → File) : d.modify p f p = (d p).map f :=
  Function.update_self _ _ _

end Disk

/-- The files that a change may change. -/
def Change.touches : Change → List Path
  | .openWrite p | .append p _ | .sync p | .remove p => [p]
  | .rename src dst => [src, dst]
  | .lockFile => [.db lockFileName]
  | .createDirectory | .createLost | .close _ | .syncDirectory => []

theorem Change.Does.frame {c : Change} {d d' : Disk} {r : Except Status Unit} (h : c.Does d r d')
    {q : Path} (hq : q ∉ c.touches) : d' q = d q := by
  cases c with
  | createDirectory => exact congrFun h q
  | createLost => exact congrFun h q
  | syncDirectory => exact congrFun h q
  | close p => exact congrFun h q
  | lockFile =>
    rcases h with rfl | ⟨-, rfl⟩
    · rfl
    · exact Function.update_of_ne (List.ne_of_not_mem_cons hq) _ _
  | openWrite p =>
    rcases h with rfl | ⟨-, rfl⟩
    · exact Function.update_of_ne (List.ne_of_not_mem_cons hq) _ _
    · rfl
  | append p piece =>
    rcases h with rfl | ⟨-, rfl | rfl⟩
    · exact Disk.modify_of_ne _ (List.ne_of_not_mem_cons hq)
    · rfl
    · exact Disk.modify_of_ne _ (List.ne_of_not_mem_cons hq)
  | sync p =>
    obtain ⟨n, rfl, -⟩ := h
    exact Disk.modify_of_ne _ (List.ne_of_not_mem_cons hq)
  | rename src dst =>
    rcases h with ⟨f, -, rfl⟩ | ⟨-, rfl⟩
    · have hdst : q ≠ dst := List.ne_of_not_mem_cons (List.not_mem_of_not_mem_cons hq)
      rw [Disk.rename, Function.update_of_ne hdst, Function.update_of_ne (List.ne_of_not_mem_cons hq)]
    · rfl
  | remove p =>
    rcases h with rfl | ⟨-, rfl⟩
    · exact Function.update_of_ne (List.ne_of_not_mem_cons hq) _ _
    · rfl

/-! ## Programs -/

/-- A program over the calls that ends with a status or a result. -/
abbrev Fs := ExceptT Status (Lib.Program Answer)

namespace Fs

def change (c : Change) : Fs Unit := .mk (Program.ask (Call.change c))

def createDirectory : Fs Unit := change .createDirectory
def lockFile : Fs Unit := change .lockFile
def openWrite (p : Path) : Fs Unit := change (.openWrite p)
def append (p : Path) (piece : Piece) : Fs Unit := change (.append p piece)
def sync (p : Path) : Fs Unit := change (.sync p)
def close (p : Path) : Fs Unit := change (.close p)
def rename (src dst : Path) : Fs Unit := change (.rename src dst)
def syncDirectory : Fs Unit := change .syncDirectory

def pathType (p : Path) : Fs PathType := .lift (Program.ask (Call.pathType p))
def listDirectory : Fs (List FileName) := .mk (Program.ask Call.listDirectory)
def read (p : Path) : Fs (List Piece × Option Status) := .mk (Program.ask (Call.read p))

/-- `remove_file`, whose status no caller looks at. -/
def remove (p : Path) : Fs Unit := do
  let _ ← ExceptT.lift (change (.remove p)).run

/-- The outcome of a computation that makes no call. -/
def ofExcept {α : Type} (r : Except Status α) : Fs α := .mk (pure r)

/-- The program, and what it does before it passes its failure on. -/
def onFailure {α : Type} (p : Fs α) (cleanup : Fs Unit) : Fs α := do
  match ← ExceptT.lift p.run with
  | .ok a => pure a
  | .error status =>
    cleanup
    throw status

/-- Pieces appended to a file, and a sync. -/
def write (p : Path) (pieces : List Piece) : Fs Unit := do
  pieces.forM (append p)
  sync p

end Fs

/-! ## Rules for programs -/

/-- An invariant of the directory, and rules for calls that keep it, whatever program makes
    them; `step` are the outcomes of calls that are considered. -/
structure Rules where
  step : (c : Call) → Disk → Answer c → Disk → Prop
  inv : Disk → Prop
  guard : Call → Disk → Prop
  performs : ∀ {c d r d'}, step c d r d' → Performs c d r d'
  sound : ∀ {c d r d'}, inv d → guard c d → step c d r d' → inv d'

namespace Rules

variable (R : Rules) {d : Disk} {α : Type} {E E' : Status → Disk → Prop}

/-- The program keeps the rules, and ends as described. -/
abbrev Keeps (p : Fs α) (d : Disk) (E : Status → Disk → Prop) (Q : α → Disk → Prop) : Prop :=
  Safe R.step R.inv R.guard p.run d (Safe.Ends E Q)

variable {R}

theorem Keeps.ends {p : Fs α} {Q Q' : α → Disk → Prop} (h : R.Keeps p d E Q)
    (hE : ∀ status d', E status d' → E' status d') (hQ : ∀ a d', Q a d' → Q' a d') :
    R.Keeps p d E' Q' := by
  refine Safe.mono h fun r d' _ hr => ?_
  cases r with
  | ok a => exact hQ a d' hr
  | error status => exact hE status d' hr

theorem Keeps.onFailure (E' : Status → Disk → Prop) {p : Fs α} {cleanup : Fs Unit}
    {Q : α → Disk → Prop} (hp : R.Keeps p d E' Q)
    (hc : ∀ status t, R.inv t → E' status t → R.Keeps cleanup t E fun _ => E status) :
    R.Keeps (Fs.onFailure p cleanup) d E Q := by
  refine Safe.lift hp fun r t hI hr => ?_
  cases r with
  | ok a => exact Safe.exceptPure hI hr
  | error status => exact Safe.except (hc status t hI hr) fun _ t' hI' hE => Safe.throw hI' hE

theorem keeps_change {c : Change} {Q : Unit → Disk → Prop} (hI : R.inv d) (hG : R.guard (.change c) d)
    (hok : ∀ d', c.Does d (.ok ()) d' → Q () d')
    (herr : ∀ status d', c.Does d (.error status) d' → E status d') :
    R.Keeps (Fs.change c) d E Q := by
  refine Safe.ask hI hG fun r d' h => ⟨R.sound hI hG h, ?_⟩
  cases r with
  | ok u => exact hok d' (R.performs h)
  | error status => exact herr status d' (R.performs h)

theorem keeps_remove {p : Path} {Q : Unit → Disk → Prop} (hI : R.inv d)
    (hG : R.guard (.change (.remove p)) d) (hQ : ∀ d', d' = d.remove p ∨ d' = d → Q () d') :
    R.Keeps (Fs.remove p) d E Q := by
  have hdoes : ∀ r d', (Change.remove p).Does d r d' → Q () d' := fun r d' h =>
    hQ d' (h.imp id And.right)
  have hrun : R.Keeps (Fs.change (.remove p)) d (fun _ => Q ()) Q :=
    keeps_change hI hG (fun d' h => hdoes _ d' h) fun _ d' h => hdoes _ d' h
  refine Safe.lift hrun fun r t hI hr => Safe.exceptPure hI ?_
  cases r with
  | ok u => exact hr
  | error status => exact hr

/-- Only this file is different. -/
def Only (p : Path) (d d' : Disk) : Prop := ∀ q, q ≠ p → d' q = d q

theorem Only.refl (p : Path) (d : Disk) : Only p d d := fun _ _ => rfl

theorem Only.trans {p : Path} {d d' d'' : Disk} (h : Only p d d') (h' : Only p d' d'') : Only p d d'' :=
  fun q hq => (h' q hq).trans (h q hq)

theorem only_of_touches {c : Change} {p : Path} {d d' : Disk} {r : Except Status Unit}
    (h : c.Does d r d') (hp : c.touches ⊆ [p]) : Only p d d' := fun _ hq =>
  h.frame fun hmem => hq (List.mem_singleton.mp (hp hmem))

theorem keeps_openWrite {p : Path} (hI : R.inv d) (hG : R.guard (.change (.openWrite p)) d) :
    R.Keeps (Fs.openWrite p) d (fun _ d' => Only p d d')
      fun _ d' => Only p d d' ∧ d' p = some ⟨[], []⟩ := by
  refine keeps_change hI hG (fun d' h => ⟨only_of_touches h (List.Subset.refl _), ?_⟩) fun _ d' h =>
    only_of_touches h (List.Subset.refl _)
  rcases h with rfl | ⟨hr, -⟩
  · exact Function.update_self _ _ _
  · exact absurd rfl hr

theorem keeps_append {p : Path} {piece : Piece} (hI : R.inv d)
    (hG : R.guard (.change (.append p piece)) d) :
    R.Keeps (Fs.append p piece) d (fun _ d' => Only p d d')
      fun _ d' => Only p d d' ∧
        ∀ f, d p = some f → d' p = some { f with unsynced := f.unsynced ++ [piece] } := by
  refine keeps_change hI hG (fun d' h => ⟨only_of_touches h (List.Subset.refl _), fun f hf => ?_⟩)
    fun _ d' h => only_of_touches h (List.Subset.refl _)
  rcases h with rfl | ⟨hr, -⟩
  · rw [Disk.append, Disk.modify_self, hf]
    rfl
  · exact absurd rfl hr

theorem keeps_sync {p : Path} (hI : R.inv d) (hG : R.guard (.change (.sync p)) d) :
    R.Keeps (Fs.sync p) d (fun _ d' => Only p d d')
      fun _ d' => Only p d d' ∧ ∀ f, d p = some f → d' p = some ⟨f.pieces, []⟩ := by
  refine keeps_change hI hG (fun d' h => ⟨only_of_touches h (List.Subset.refl _), fun f hf => ?_⟩)
    fun _ d' h => only_of_touches h (List.Subset.refl _)
  obtain ⟨n, rfl, hn⟩ := h
  rw [Disk.sync, Disk.modify_self, hf, Option.map_some, List.take_of_length_le (hn rfl f hf),
    List.drop_of_length_le (hn rfl f hf)]
  rfl

/-- **Writing to a file**, where appends to it and syncs of it keep the rules. -/
theorem keeps_write {p : Path} (pieces : List Piece) (hI : R.inv d)
    (happend : ∀ piece d', R.guard (.change (.append p piece)) d')
    (hsync : ∀ d', R.guard (.change (.sync p)) d') :
    R.Keeps (Fs.write p pieces) d (fun _ d' => Only p d d')
      fun _ d' => Only p d d' ∧ ∀ f, d p = some f → d' p = some ⟨f.pieces ++ pieces, []⟩ := by
  -- what is left to append makes up the file's pieces
  have hloop : R.Keeps (pieces.forM (Fs.append p)) d (fun _ d' => Only p d d') fun _ d' =>
      Only p d d' ∧ ∀ f, d p = some f → ∃ g, d' p = some g ∧ g.pieces ++ [] = f.pieces ++ pieces := by
    refine Safe.exceptForM (fun rest d' => Only p d d' ∧ ∀ f, d p = some f →
      ∃ g, d' p = some g ∧ g.pieces ++ rest = f.pieces ++ pieces) ?_ pieces hI
      ⟨Only.refl p d, fun f hf => ⟨f, hf, rfl⟩⟩
    intro piece rest d₁ hI₁ hJ
    obtain ⟨honly, hpieces⟩ := hJ
    refine (keeps_append hI₁ (happend piece d₁)).ends (fun _ d' h => honly.trans h) ?_
    rintro - d' ⟨honly', hd'⟩
    refine ⟨honly.trans honly', fun f hf => ?_⟩
    obtain ⟨g, hg, hgf⟩ := hpieces f hf
    refine ⟨_, hd' g hg, ?_⟩
    rw [← hgf, File.pieces, File.pieces]
    simp
  refine Safe.except hloop ?_
  rintro - d₁ hI₁ ⟨honly, hpieces⟩
  refine (keeps_sync hI₁ (hsync d₁)).ends (fun _ d' h => honly.trans h) ?_
  rintro - d' ⟨honly', hd'⟩
  refine ⟨honly.trans honly', fun f hf => ?_⟩
  obtain ⟨g, hg, hgf⟩ := hpieces f hf
  rw [hd' g hg, ← hgf, List.append_nil]

theorem keeps_read {p : Path} (hI : R.inv d) (hG : R.guard (.read p) d) (hE : ∀ status, E status d) :
    R.Keeps (Fs.read p) d E fun r d' =>
      d' = d ∧ (r.2 = none → ∃ f, d p = some f ∧ r.1 = f.pieces) := by
  refine Safe.ask hI hG fun r d' h => ⟨R.sound hI hG h, ?_⟩
  obtain ⟨heq, hr⟩ := R.performs h
  cases r with
  | ok r =>
    refine ⟨heq, fun hnone => ?_⟩
    obtain ⟨f, hf, -, hall⟩ := hr r.1 r.2 rfl
    exact ⟨f, hf, hall hnone⟩
  | error status => exact (show d' = d from heq) ▸ hE status

theorem keeps_listDirectory (hI : R.inv d) (hG : R.guard .listDirectory d) :
    R.Keeps Fs.listDirectory d (fun _ d' => d' = d) fun names d' => d' = d ∧ Lists d names := by
  refine Safe.ask hI hG fun r d' h => ⟨R.sound hI hG h, ?_⟩
  obtain ⟨heq, hr⟩ := R.performs h
  cases r with
  | ok names => exact ⟨heq, hr names rfl⟩
  | error status => exact heq

theorem keeps_ofExcept {r : Except Status α} {Q : α → Disk → Prop} (hI : R.inv d)
    (hok : ∀ a, r = .ok a → Q a d) (herr : ∀ status, r = .error status → E status d) :
    R.Keeps (Fs.ofExcept r) d E Q := by
  cases r with
  | ok a => exact ⟨hI, hok a rfl⟩
  | error status => exact ⟨hI, herr status rfl⟩

end Rules

end Ambar.Storage

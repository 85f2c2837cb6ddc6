import Quasiquote.Unit.Namespace
import Quasiquote.Proofs.State

namespace Quasiquote

/-!
# Files — what writing leaves alone

Making directories changes the text of no file, and writing a file changes the text of
no other one.

* `Files.text?_makeDirectory`, `Files.text?_write_of_ne` — the two operations;
* `Artifacts.write_cases` — writing the file of a unit, which may fail.
-/

namespace Files

/-- Without files there are no texts. -/
theorem text?_empty (p : Path) : ({} : Files).text? p = none := by
  unfold text? get?
  split <;> simp_all [find]

theorem get?_set_of_ne (fs : Files) {p q : Path} (e : FileEntry) (h : q ≠ p) :
    (fs.set p e).get? q = fs.get? q := by
  simp [get?, set, find_put, h]

theorem text?_set_of_ne (fs : Files) {p q : Path} (e : FileEntry) (h : q ≠ p) :
    (fs.set p e).text? q = fs.text? q := by
  simp only [text?, get?_set_of_ne fs e h]

/-- A text after an entry is put there is an old one or that of the entry. -/
theorem text?_set {fs : Files} {p q : Path} {new text : String}
    (h : (fs.set p (.text new)).text? q = some text) : text = new ∨ fs.text? q = some text := by
  by_cases hq : q = p
  · subst hq
    by_cases hroot : q = [] ∨ q = ["/"]
    · simp [text?, get?, hroot] at h
    · rw [not_or] at hroot
      simp [text?, get?_set _ _ _ hroot.1 hroot.2] at h
      exact .inl h.symm
  · exact .inr (text?_set_of_ne fs _ hq ▸ h)

/-- A directory that is made has no text, and where it is made there was none. -/
theorem text?_set_directory {fs : Files} {p : Path} (h : fs.get? p = none) (q : Path) :
    (fs.set p .directory).text? q = fs.text? q := by
  by_cases hq : q = p
  · subst hq
    have hroot : ¬ (q = [] ∨ q = ["/"]) := by
      intro hroot
      simp [get?, hroot] at h
    have hset : (fs.set q .directory).get? q = some .directory := by
      simp [get?, set, find_put]
    simp only [text?, hset, h]
  · exact text?_set_of_ne fs _ hq

theorem text?_makeBelow {fs fs' : Files} {above : Path} {names : List String}
    (h : fs.makeBelow above names = .ok fs') (q : Path) : fs'.text? q = fs.text? q := by
  induction names generalizing fs above with
  | nil =>
    cases h
    rfl
  | cons name names ih =>
    unfold makeBelow at h
    split at h
    · exact ih h
    · cases h
    · rename_i hnone
      rw [ih h, text?_set_directory hnone]

/-- Making directories changes the text of no file. -/
theorem text?_makeDirectory {fs fs' : Files} {p : Path} (h : fs.makeDirectory p = .ok fs')
    (q : Path) : fs'.text? q = fs.text? q :=
  text?_makeBelow h q

/-- Writing a file changes the text of no other one. -/
theorem text?_write_of_ne {fs fs' : Files} {p q : Path} {text : String}
    (h : fs.write p text = .ok fs') (hne : q ≠ p) : fs'.text? q = fs.text? q := by
  unfold write at h
  split at h
  · cases h
  · split at h
    · cases h
      exact text?_set_of_ne fs _ hne
    · cases h

/-- A file that has been written has the text. -/
theorem text?_write_self {fs fs' : Files} {p : Path} {text : String}
    (h : fs.write p text = .ok fs') : fs'.text? p = some text := by
  unfold write at h
  split at h
  · cases h
  · rename_i hdirectory
    have hroot : p ≠ [] ∧ p ≠ ["/"] := by
      constructor <;> rintro rfl <;> exact hdirectory rfl
    split at h
    · cases h
      simp [text?, get?_set _ _ _ hroot.1 hroot.2]
    · cases h

end Files

/-- A change of files is made, or its failure is reported. -/
theorem FilesM.change_run (text : String) (f : Files → Except FileError Files) (fs : Files) :
    (change text f).run fs = match f fs with
      | .ok fs' => (.ok (), fs')
      | .error e => (.error (.ofFile text e.message), fs) := by
  unfold change
  cases h : f fs <;> simp [ExceptT.run, ExceptT.mk, h]

namespace FilesM

theorem text?_makeDirectory (path : String) (fs : Files) (q : Path) :
    ((makeDirectory path).run fs).2.text? q = fs.text? q := by
  rw [makeDirectory, change_run]
  cases h : fs.makeDirectory (Path.ofText path) with
  | error e => rfl
  | ok fs' => exact Files.text?_makeDirectory h q

/-- Writing changes the text of no file, or the one that is written has the new text. -/
theorem text?_write_cases (path content : String) (fs : Files) (q : Path) :
    ((write path content).run fs).2.text? q = fs.text? q ∨
      q = Path.ofText path ∧ ((write path content).run fs).2.text? q = some content := by
  rw [write, change_run]
  cases hwrite : fs.write (Path.ofText path) content with
  | error e => exact .inl rfl
  | ok fs' =>
    by_cases hq : q = Path.ofText path
    · exact .inr ⟨hq, hq ▸ Files.text?_write_self hwrite⟩
    · exact .inl (Files.text?_write_of_ne hwrite hq)

end FilesM

namespace Artifacts

/-- Writing the file of a unit changes no other text.  If it fails it changes no text. -/
theorem write_cases {files : Artifacts} {unit text : String}
    (h : files.entries = [(unit, text)]) (root : String) (fs : Files) :
    (∃ path error, ((files.write root).run fs).1 = .error (.ofFile path error) ∧
      ∀ q, ((files.write root).run fs).2.text? q = fs.text? q) ∨
    (∃ paths, ((files.write root).run fs).1 = .ok paths) ∧
      ∀ q, q ≠ Path.ofText (unitPath root unit) →
        ((files.write root).run fs).2.text? q = fs.text? q := by
  let path := unitPath root unit
  simp only [write, h, writeAll, run_bind_apply, FilesM.makeDirectory, FilesM.write,
    FilesM.change_run]
  cases hmake : fs.makeDirectory (Path.ofText (Path.around path)) with
  | error e => exact .inl ⟨_, _, rfl, fun q => rfl⟩
  | ok fs₁ =>
    have hmade := Files.text?_makeDirectory hmake
    cases hwrite : fs₁.write (Path.ofText path) text with
    | error e => exact .inl ⟨path, e.message, by simp [hwrite, path], by simpa [hwrite, path] using hmade⟩
    | ok fs₂ =>
      refine .inr ⟨⟨[path], by simp [hwrite, path]⟩, fun q hq => ?_⟩
      rw [← hmade q]
      simpa [hwrite, path] using Files.text?_write_of_ne hwrite hq

/-- The file of a unit that has been written has the text. -/
theorem text?_write {files : Artifacts} {unit text : String} (h : files.entries = [(unit, text)])
    {root : String} {fs : Files} {paths : List String}
    (hok : ((files.write root).run fs).1 = .ok paths) :
    ((files.write root).run fs).2.text? (Path.ofText (unitPath root unit)) = some text := by
  revert hok
  simp only [write, h, writeAll, run_bind_apply, FilesM.makeDirectory, FilesM.write,
    FilesM.change_run]
  cases fs.makeDirectory (Path.ofText (Path.around (unitPath root unit))) with
  | error e => exact nofun
  | ok fs₁ =>
    dsimp only
    cases hwrite : fs₁.write (Path.ofText (unitPath root unit)) text with
    | error e => exact nofun
    | ok fs₂ => exact fun _ => Files.text?_write_self hwrite

end Artifacts

end Quasiquote

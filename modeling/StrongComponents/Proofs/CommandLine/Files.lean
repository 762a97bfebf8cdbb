import StrongComponents.CommandLine.File
import StrongComponents.Graph.Error
import Mathlib.Data.List.Basic

/-!
# Reading and writing files

A path leads to one place (`Disk.LeadsTo`), and what is read and written is what is at that place.
Writing gives one file a new content and leaves all else, or a null device takes the content and
nothing changes (`Disk.takes_of_write`).
-/

set_option autoImplicit false

namespace StrongComponents

/-- A text is found in its own bytes. -/
theorem decodeText_toUTF8 (text : String) : decodeText text.toUTF8 = .ok text := by
  have hvalid : text.toUTF8.IsValidUTF8 := text.isValidUTF8
  rw [decodeText, String.fromUTF8?, dif_pos hvalid]
  rfl

namespace Disk

/-! ## Where a path leads -/

/-- The text can be the path of a file, and it leads to this place. -/
@[mk_iff]
structure LeadsTo (d : Disk) (text : String) (folder : Path) (name : String) : Prop where
  valid : checkText text = .ok ()
  slash : withoutFinalSlashes text = text
  locate_eq : d.locate text = .ok (folder, name)
  file : namesFolder name = false
  name_valid : checkName name = .ok ()

instance (d : Disk) (text : String) (folder : Path) (name : String) :
    Decidable (d.LeadsTo text folder name) :=
  decidable_of_iff _ (leadsTo_iff d text folder name).symm

section Writing

variable {d d' : Disk} {target : Path} {content : ByteArray}

/-- A folder can still be entered after a file is set. -/
theorem enter_set {folder folder' : Path} {name : String} (h : d.enter folder name = .ok folder') :
    (d.set target content).enter folder name = .ok folder' := by
  have hfolder : (d.set target content).isFolder = d.isFolder := rfl
  simp only [enter, hfolder] at h ⊢
  by_cases hstay : name = "" ∨ name = "."
  · rwa [if_pos hstay] at h ⊢
  rw [if_neg hstay] at h ⊢
  by_cases hparent : name = Path.parentName
  · rwa [if_pos hparent] at h ⊢
  rw [if_neg hparent] at h ⊢
  -- What the files are matters only to the reason why a folder cannot be entered.
  obtain ⟨_, hname, hentered⟩ := bind_eq_ok_iff.1 h
  refine bind_eq_ok_iff.2 ⟨_, hname, ?_⟩
  by_cases hthere : d.isFolder (folder ++ [name]) = true
  · rwa [if_pos hthere] at hentered ⊢
  · rw [if_neg hthere] at hentered
    cases hentered

theorem foldlM_enter_set {names : List String} {folder folder' : Path}
    (h : names.foldlM d.enter folder = .ok folder') :
    names.foldlM (d.set target content).enter folder = .ok folder' := by
  induction names generalizing folder with
  | nil => exact h
  | cons name names ih =>
      rw [List.foldlM_cons, bind_eq_ok_iff] at h ⊢
      obtain ⟨entered, henter, hrest⟩ := h
      exact ⟨entered, enter_set henter, ih hrest⟩

/-- A path leads where it led before a file was set. -/
theorem locate_set {text : String} {place : Path × String} (h : d.locate text = .ok place) :
    (d.set target content).locate text = .ok place := by
  rw [locate, bind_eq_ok_iff] at h ⊢
  obtain ⟨folder, hfolder, hplace⟩ := h
  exact ⟨folder, foldlM_enter_set hfolder, hplace⟩

theorem LeadsTo.set {text : String} {folder : Path} {name : String}
    (h : d.LeadsTo text folder name) : (d.set target content).LeadsTo text folder name :=
  ⟨h.valid, h.slash, locate_set h.locate_eq, h.file, h.name_valid⟩

theorem LeadsTo.unique {text : String} {folder folder' : Path} {name name' : String}
    (h : d.LeadsTo text folder name) (h' : d.LeadsTo text folder' name') :
    folder = folder' ∧ name = name' := by
  cases h.locate_eq.symm.trans h'.locate_eq
  exact ⟨rfl, rfl⟩

theorem LeadsTo.read_eq {text : String} {folder : Path} {name : String}
    (h : d.LeadsTo text folder name) (hcontent : d.content? (folder ++ [name]) = some content) :
    d.read text = .ok content := by
  rw [read, h.valid, h.locate_eq]
  simp [bind, Except.bind, pure, Except.pure, h.file, h.name_valid, hcontent]

end Writing

end Disk

end StrongComponents

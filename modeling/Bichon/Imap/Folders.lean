import Mathlib.Data.String.Basic
import Mathlib.Data.Finset.Sort

/-!
# The folder lists of an account

Before a download the listing of the server is compared with the folders that are known.
Folders that have gone leave the list of folders to download, and new ones are added to it
when the account says so. Each of the two writes computes the whole list from the record
that was loaded at the start, so the second one undoes the first.
-/

namespace Bichon.Imap

open List

/-- The fields of an account that a listing is compared with. -/
structure FolderLists where
  knownFolders : Option (Finset String)
  downloadFolders : Option (List String)
  autoDownloadNewMailboxes : Option Bool
  deriving DecidableEq

def FolderLists.updateDownloadFolders (stored : FolderLists) (folders : List String) :
    FolderLists :=
  { stored with downloadFolders := some folders }

def FolderLists.updateKnownFolders (stored : FolderLists) (folders : Finset String) :
    FolderLists :=
  { stored with knownFolders := some folders }

/-- What `detect_mailbox_changes` makes of the stored account. The lists come from `account`,
which the caller has loaded before. -/
def detectMailboxChanges (account : FolderLists) (allNames : Finset String)
    (stored : FolderLists) : FolderLists :=
  match account.knownFolders with
  | none => stored.updateKnownFolders allNames
  | some knownFolders =>
    let newFolders := (allNames \ knownFolders).sort (· ≤ ·)
    let deletedFolders := (knownFolders \ allNames).sort (· ≤ ·)
    let downloadFolders := account.downloadFolders.getD []
    let remaining := downloadFolders.filter (· ∉ deletedFolders)
    let stored :=
      if deletedFolders ≠ [] ∧ remaining.length ≠ downloadFolders.length then
        stored.updateDownloadFolders remaining
      else stored
    let stored :=
      if newFolders ≠ [] ∧ account.autoDownloadNewMailboxes.getD false then
        stored.updateDownloadFolders (downloadFolders ++ newFolders)
      else stored
    if newFolders ≠ [] ∨ deletedFolders ≠ [] then stored.updateKnownFolders allNames else stored

section

variable (known listed : Finset String) (download : Option (List String)) (auto : Option Bool)

/-- The account after a listing, with the folders it has known before. -/
abbrev listedFolders : FolderLists :=
  detectMailboxChanges ⟨some known, download, auto⟩ listed ⟨some known, download, auto⟩

/-- Folders have gone from the list to download, and others are added to it. -/
def FoldersReplaced : Prop :=
  auto.getD false = true ∧ (listed \ known).Nonempty ∧ ∃ f ∈ download.getD [], f ∈ known \ listed

end

variable {known listed : Finset String} {download : Option (List String)} {auto : Option Bool}

theorem sort_eq_nil {s : Finset String} : s.sort (· ≤ ·) = [] ↔ s = ∅ := by
  rw [← length_eq_zero_iff, Finset.length_sort, Finset.card_eq_zero]

theorem knownFolders_listedFolders :
    (listedFolders known listed download auto).knownFolders = some listed := by
  dsimp only [listedFolders, detectMailboxChanges]
  split
  next => rfl
  next hsame =>
    rw [not_or, not_not, not_not, sort_eq_nil, sort_eq_nil, Finset.sdiff_eq_empty_iff_subset,
      Finset.sdiff_eq_empty_iff_subset] at hsame
    rw [hsame.1.antisymm hsame.2]
    split_ifs <;> rfl

theorem downloadFolders_listedFolders :
    (listedFolders known listed download auto).downloadFolders.getD [] =
      if (listed \ known).Nonempty ∧ auto.getD false = true then
        download.getD [] ++ (listed \ known).sort (· ≤ ·)
      else (download.getD []).filter (· ∉ known \ listed) := by
  have hout {c : Prop} [Decidable c] (x : FolderLists) :
      (if c then x.updateKnownFolders listed else x).downloadFolders = x.downloadFolders := by
    split <;> rfl
  dsimp only [listedFolders, detectMailboxChanges]
  simp only [hout, Finset.mem_sort, ne_eq, sort_eq_nil, ← Finset.nonempty_iff_ne_empty]
  split
  next => rfl
  next =>
    split
    next => rfl
    next hkept =>
      symm
      by_cases hgone : (known \ listed).Nonempty
      · have hlength := not_not.mp (not_and.mp hkept hgone)
        exact filter_eq_self.mpr (length_filter_eq_length_iff.mp hlength)
      · rw [Finset.not_nonempty_iff_eq_empty.mp hgone]
        simp

/-- The known folders are those of the listing. The folders to download are the old ones
without those that have gone, followed by the new ones when the account says so, unless
folders of the list have gone and new ones are added at the same time. -/
theorem folder_lists_exact_iff (known listed : Finset String) (download : Option (List String))
    (auto : Option Bool) :
    (listedFolders known listed download auto).knownFolders = some listed ∧
      ((listedFolders known listed download auto).downloadFolders.getD [] =
          (download.getD []).filter (· ∉ known \ listed) ++
            (if auto.getD false then (listed \ known).sort (· ≤ ·) else []) ↔
        ¬ FoldersReplaced known listed download auto) := by
  refine ⟨knownFolders_listedFolders, ?_⟩
  rw [downloadFolders_listedFolders, FoldersReplaced]
  split
  next hnew =>
    rw [if_pos hnew.2, append_cancel_right_eq, eq_comm, filter_eq_self]
    simp [hnew.1, hnew.2, imp_iff_not_or]
  next hnone =>
    have hnil : (if auto.getD false then (listed \ known).sort (· ≤ ·) else []) = [] := by
      split
      next hauto => exact sort_eq_nil.mpr (by simpa [hauto] using hnone)
      next => rfl
    rw [hnil, append_nil]
    exact iff_of_true rfl fun h => hnone ⟨h.2.1, h.1⟩

/-- A folder that was renamed is still to be downloaded under its old name. -/
theorem renamed_folder_remains :
    (listedFolders {"Old"} {"New"} (some ["Old"]) (some true)).downloadFolders =
      some ["Old", "New"] := by
  decide +kernel

end Bichon.Imap

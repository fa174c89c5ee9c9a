import Antegen.MixedOrder
import Mathlib.Data.List.Lex
import Mathlib.Data.Prod.Lex
import Mathlib.Data.Char
import Mathlib.Tactic

/-!
# The installed versions of the command line tool

The versions are listed from the names of the installed files, the newest first. A release is
compared with a release by its three numbers. As soon as one of the two names is not a
release, as with a release candidate, their texts are compared.
-/
namespace Antegen.Cli

open MixedOrder

abbrev Text := List Char

/-- Ordered as the tuple of the three numbers is. -/
abbrev Version := ℕ ×ₗ ℕ ×ₗ ℕ

/-- `str::parse::<u32>`, which takes a leading plus sign and leading zeros. -/
def parseU32 (s : Text) : Option ℕ :=
  let digits := if s.head? = some '+' then s.tail else s
  if digits = [] ∨ ¬ digits.all Char.isDigit then none
  else if Nat.ofDigitChars 10 digits 0 < 2 ^ 32 then some (Nat.ofDigitChars 10 digits 0)
  else none

/-- One `v` in front is not needed. -/
def parseVersion (v : Text) : Option Version :=
  let v := if v.head? = some 'v' then v.tail else v
  match v.splitOn '.' with
  | [major, minor, patch] => do
    let major ← parseU32 major
    let minor ← parseU32 minor
    let patch ← parseU32 patch
    some (toLex (major, toLex (minor, patch)))
  | _ => none

def versionLessThan (v1 v2 : Text) : Bool :=
  match parseVersion v1, parseVersion v2 with
  | some a, some b => a < b
  | _, _ => false

/-- The comparison of `sort_by`, with the arguments the other way around: by version if both
are releases, by text otherwise. -/
def compareVersions (a b : Text) : Ordering := mixedCompare parseVersion b a

/-- The version in the name of an installed file. -/
def managedVersion (name : Text) : Option Text :=
  if "antegen-node-".toList.isPrefixOf name then none
  else if "antegen-v".toList.isPrefixOf name then some (name.drop "antegen-".length)
  else none

/-- The versions in the directory and the one that cargo installed, before they are sorted. -/
def cliVersions (entries : List Text) (cargoVersion : Option Text) : List Text :=
  let managed := entries.filterMap managedVersion
  managed ++ (cargoVersion.filter fun version => !managed.contains version).toList

def listCli (entries : List Text) (cargoVersion : Option Text) : List Text :=
  (cliVersions entries cargoVersion).mergeSort fun a b => decide (compareVersions a b ≠ .gt)

/-- The comparison is a total order on the names, and what is listed, if it is among them,
does not depend on the order of the directory. -/
structure WellSorted (names : Set Text) : Prop where
  order : TotalOrderOn names fun a b => compareVersions a b ≠ .gt
  listed : ∀ entries entries' : List Text, entries.Perm entries' → ∀ cargoVersion,
    (∀ version ∈ cliVersions entries cargoVersion, version ∈ names) →
      listCli entries cargoVersion = listCli entries' cargoVersion

theorem cliVersions_perm {entries entries' : List Text} (h : entries.Perm entries')
    (cargoVersion : Option Text) :
    (cliVersions entries cargoVersion).Perm (cliVersions entries' cargoVersion) := by
  have hmanaged : (entries.filterMap managedVersion).Perm (entries'.filterMap managedVersion) :=
    h.filterMap managedVersion
  have hcontains : ∀ version, (entries.filterMap managedVersion).contains version =
      (entries'.filterMap managedVersion).contains version := fun version => by
    rw [Bool.eq_iff_iff, List.contains_iff_mem, List.contains_iff_mem, hmanaged.mem_iff]
  unfold cliVersions
  simp only [hcontains]
  exact hmanaged.append_right _

/-- The versions are well sorted exactly if no two of them are the same release under two
names, and no name that is not a release stands, as a text, between two releases whose texts
are ordered against their versions. -/
theorem wellSorted_iff (names : Set Text) :
    WellSorted names ↔ Consistent parseVersion names := by
  constructor
  · intro h
    exact totalOrderOn_iff.mp h.order.flip
  · intro h
    have horder : TotalOrderOn names fun a b => compareVersions a b ≠ .gt :=
      (totalOrderOn_iff.mpr h).flip
    exact ⟨horder, fun entries entries' hperm cargoVersion hnames =>
      horder.mergeSort_eq hnames (cliVersions_perm hperm cargoVersion)⟩

def release : Text := "v10.0.0".toList

def olderRelease : Text := "v9.0.0".toList

def candidate : Text := "v2.0.0-rc.1".toList

/-- A release candidate and two releases, each of which is listed before the next. -/
theorem versions_cycle :
    compareVersions release olderRelease = .lt ∧ compareVersions olderRelease candidate = .lt ∧
      compareVersions candidate release = .lt ∧
      ¬ TotalOrderOn {name | name.head? = some 'v'} fun a b => compareVersions a b ≠ .gt := by
  refine ⟨by decide +kernel, by decide +kernel, by decide +kernel, fun horder => ?_⟩
  have hnames : release.head? = some 'v' ∧ olderRelease.head? = some 'v' ∧
      candidate.head? = some 'v' := by decide +kernel
  obtain ⟨hrelease, holder, hcandidate⟩ := hnames
  refine horder.trans release hrelease olderRelease holder candidate hcandidate ?_ ?_ ?_
  · decide +kernel
  · decide +kernel
  · decide +kernel

end Antegen.Cli

import ProjectRegistry.Registry

/-!
# Retention

A sweep looks at every active project and removes the versions that are too far below its newest
one. The current version stays, wherever it is. A project whose sweep fails is counted and does not
keep the others from being swept.
-/

namespace ProjectRegistry.Registry

/-- On whose behalf a sweep writes to the log. -/
def sweeper : String := "fc-project-retention"

structure SweepReport where
  scanned : Nat
  removed : Nat
  failures : Nat
  deriving DecidableEq, Repr

/-- The number below which versions go, if any can be. At least one version is retained, so it is at
most the newest number. -/
def threshold? (retained : Nat) (newest : Int32) : Option Int32 :=
  let t := newest.toInt - (max retained 1 : Nat) + 1
  if t ≤ 1 then none else some (Int32.ofInt t)

def newest? (versions : List Version) : Option Int32 :=
  versions.foldl (fun largest v => some
    ((largest.map fun n => if n < v.number then v.number else n).getD v.number))
    none

def purgeMessage (removed : List Version) (threshold : Int32) : String :=
  let numbers := removed.map fun v => Text.decimalOf v.number.toInt
  "Removed versions " ++ String.ofList (Text.joinWith [',', ' '] numbers) ++
    " below retention threshold " ++
    Text.numeralText threshold.toInt

variable {σ : Type} [Store σ]

/-- Sweeps one project and says how many versions it lost. The log is kept as well as that is
possible. -/
def sweepProject (now : Time.Instant) (retained : Nat) (p : Project) : Step (Registry σ) Nat := do
  let versions ← ask (Store.versions p.id)
  match (newest? versions).bind (threshold? retained) with
  | none => return 0
  | some threshold =>
    let removed ← clean p.id threshold
    if removed.isEmpty then return 0
    else
      let message := purgeMessage removed threshold
      .change fun r => { r with store := (Store.postEvent now p .purge sweeper message r.store).2 }
      return removed.length

def sweepAll (now : Time.Instant) (retained : Nat) :
    List Project → Registry σ → SweepReport × Registry σ
  | [], r => (⟨0, 0, 0⟩, r)
  | p :: rest, r =>
    match sweepProject now retained p r with
    | (.ok removed, r) =>
      let (report, r) := sweepAll now retained rest r
      (⟨report.scanned + 1, removed + report.removed, report.failures⟩, r)
    | (.error _, r) =>
      let (report, r) := sweepAll now retained rest r
      (⟨report.scanned + 1, report.removed, report.failures + 1⟩, r)

def sweep (now : Time.Instant) (retained : Nat) : Step (Registry σ) SweepReport := do
  let projects ← ask Store.activeProjects
  fun r =>
    let (report, r) := sweepAll now retained projects r
    (.ok report, r)

end ProjectRegistry.Registry

import RiscvToolkit.Proofs.Assembly.Resolution
import RiscvToolkit.Proofs.Memory.Trimmed

/-! The memory of an assembled program has come about by writes to a zero memory. -/
namespace RiscvToolkit.Assembly

namespace Image

theorem reachable_put {i i' : Image} {place : Place} {bytes : List UInt8}
    (hi : i.memory.Reachable) (h : i.put place bytes = .ok i') : i'.memory.Reachable := by
  obtain ⟨-, hs, -⟩ := (i.put_eq_ok_iff i' place bytes).mp h
  exact .store hi hs

theorem reachable_putWords {place : Place} {words : List Emission} {i i' : Image}
    (hi : i.memory.Reachable) (h : putWords place words i = .ok i') : i'.memory.Reachable := by
  induction words generalizing i with
  | nil =>
    cases h
    exact hi
  | cons e rest ih =>
    unfold putWords at h
    obtain ⟨j, hp, h⟩ := bind_eq_ok_iff.mp h
    exact ih (reachable_put hi hp) h

end Image

theorem Piece.reachable_put {p : Piece} {place : Place} {i i' : Image}
    (hi : i.memory.Reachable) (h : p.put place i = .ok i') : i'.memory.Reachable := by
  cases p with
  | code words => exact Image.reachable_putWords hi h
  | datum stored =>
    cases stored with
    | bytes bytes => exact Image.reachable_put hi h
    | address width label =>
      obtain ⟨-, hm, -⟩ := (i.reserve_eq_ok_iff i' place width.size).mp h
      rwa [hm]

theorem Script.reachable_lay {x : Script} {i : Image} {l : Layout} (h : x.lay i = some l)
    (hi : i.memory.Reachable) : l.image.memory.Reachable := by
  induction h using lay_induction with
  | done mode i => exact hi
  | label place name rest i l _ ih => exact ih hi
  | globals names line rest i l _ ih => exact ih hi
  | piece place location p rest i j l hp _ ih => exact ih (Piece.reachable_put hi hp)
  | expansion call body rest i b l _ _ ihb ihr => exact ihr (ihb hi)

theorem Patch.reachable_applyAll {ps : List Patch} {m m' : Memory} (h : applyAll ps m = some m')
    (hm : m.Reachable) : m'.Reachable := by
  induction ps generalizing m with
  | nil =>
    cases h
    exact hm
  | cons p rest ih =>
    obtain ⟨m₁, h₁, h₂⟩ := Option.bind_eq_some_iff.mp h
    obtain ⟨_, _, -, -, hs⟩ := (p.apply_eq_some_iff m m₁).mp h₁
    exact ih h₂ (.store hm hs)

theorem Linkage.reachable_layAll {catalog : Catalog} {files : List Source.File} {i j : Image}
    {os : List Outline} (h : layAll catalog files i = some (os, j)) (hi : i.memory.Reachable) :
    j.memory.Reachable := by
  induction h using layAll_induction with
  | nil i => exact hi
  | cons file files i j y os hy _ ih => exact ih (Script.reachable_lay hy hi)

theorem reachable_assemble {catalog : Catalog} {stackSize : Nat} {files : List Source.File}
    {p : Program} (h : assemble catalog stackSize files = .ok p) : p.memory.Reachable := by
  obtain ⟨os, laid, hlay, hl⟩ := (assemble_eq_ok_iff catalog stackSize files p).mp h
  have hlaid := Linkage.reachable_layAll hlay (.withStack .empty stackSize)
  exact Patch.reachable_applyAll hl.memory hlaid

end RiscvToolkit.Assembly

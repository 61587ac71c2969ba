/-
  From the keyboard to the screen: a line that is typed in the editor is what
  `type` shows of the file.
-/
import TeamXtremeOS.Proof.Session
import TeamXtremeOS.Proof.TextEditor

namespace TeamXtremeOS

open Lib

variable {d d' : Disk} {st : Store} {f : FileName} {b buf : Buffer} {l : List UInt8} {last : Line} {n o : ℕ}
  {u : ℕ → Int16} {sh : Shell}

/-- A write that finds a place, and what is in the store then. -/
theorem Carries.written (hs : Carries d st) (hf : Named f) {sectors : Int16} (h25 : sectors.toInt ≤ 25)
    (hroom : sectors.toInt.toNat ≤ st.room) (hp : st.files.place f ≠ none) : ∃ d' st',
    (writeFile f b sectors u).exec d = some (Int16.ofNat sectors.toInt.toNat, d') ∧ Carries d' st' ∧
    st'.files.get f = some ((List.range sectors.toInt.toNat).map (chunk b) ++
      ((st.files.get f).getD []).drop sectors.toInt.toNat) := by
  have hproper : FileCall.Proper d (.writeFile f b sectors u) := by
    refine ⟨⟨hf, h25, ?_⟩, hf⟩
    rw [← hs.room]
    omega
  obtain ⟨d', he, hd'⟩ := hs.call hproper
  rcases hput : st.files.put f ((List.range sectors.toInt.toNat).map (chunk b) ++
      ((st.files.get f).getD []).drop sectors.toInt.toNat) with _ | t
  · rw [Table.put_eq_none] at hput
    rw [Table.place, Table.find_eq_none.2 (Table.get_eq_none.1 hput.1), Table.vacant_eq_none.2 hput.2] at hp
    exact absurd rfl hp
  · have hw : st.call (.writeFile f b sectors u) =
        (Int16.ofNat sectors.toInt.toNat, ⟨t, st.room - sectors.toInt.toNat⟩) := by rw [Store.call, Store.write, hput]
    rw [hw] at he hd'
    refine ⟨d', _, he, hd', ?_⟩
    rw [Table.get_put hput, if_pos rfl]

end TeamXtremeOS

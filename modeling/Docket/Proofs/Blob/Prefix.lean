import Docket.Proofs.Blob.Forms

/-!
# No blob begins another one

A reader goes from front to back: what it reads of an input it reads of every longer
one, and leaves the rest that is longer by as much. A blob that is read to its last
byte leaves the bytes behind it over, so it is acceptable with nothing behind it only,
whichever of its many forms the writer chose.
-/
namespace Docket.Blob

/-- What stands behind an acceptable blob is left over. -/
theorem decode_append {s : Schema} {bytes suffix : List UInt8} {old value : Datum}
    (h : decode s bytes old = .ok value) (other : Datum) (hs : suffix ≠ []) :
    decode s (bytes ++ suffix) other = .error (.malformed (.trailing suffix.length)) := by
  have hlonger := (decode_eq_ok_iff_blobs.1 h).yields other 0 suffix
  have hleft : suffix.isEmpty = false := List.isEmpty_eq_false_iff.2 hs
  rw [decode, decodeWith, Cursor.start, hlonger]
  dsimp only
  rw [hleft, if_neg Bool.false_ne_true]
  rfl

/-- A blob that is acceptable over some old value is acceptable neither with bytes
behind it nor with bytes cut off its end, whatever value is overwritten then. -/
theorem decode_prefix_free {s : Schema} {bytes : List UInt8} {old value : Datum}
    (h : decode s bytes old = .ok value) (other : Datum) :
    (∀ suffix, suffix ≠ [] →
      decode s (bytes ++ suffix) other = .error (.malformed (.trailing suffix.length))) ∧
    ∀ cut suffix, bytes = cut ++ suffix → suffix ≠ [] →
      ∃ fault, decode s cut other = .error (.malformed fault) := by
  refine ⟨fun suffix hs => decode_append h other hs, fun cut suffix hcut hs => ?_⟩
  cases hd : decodeWith .everyBlock s cut other with
  | error fault => exact ⟨fault, by rw [decode, hd]; rfl⟩
  | ok read =>
      -- were the cut blob acceptable, the whole one would have bytes left over
      have hok : decode s cut other = .ok read := by rw [decode, hd]; rfl
      have hwhole := decode_append hok old hs
      rw [← hcut, h] at hwhole
      cases hwhole

/-- Three longs in two blocks, the first under a negative count with a size behind
it; the varint of that count is longer than it needs to be. -/
def splitBytes : List UInt8 :=
  [0x83, 0, 4, 10, 12, 2, 14, 0]

/-- Neither the first block alone nor a second end makes another blob. -/
theorem decode_prefix_free_split :
    decode (.array .long) splitBytes (.string "old") = .ok (.array [.long 5, .long 6, .long 7]) ∧
      decode (.array .long) (splitBytes ++ [0]) .null = .error (.malformed (.trailing 1)) ∧
      ∃ fault, decode (.array .long) [0x83, 0, 4, 10, 12] .null = .error (.malformed fault) := by
  have h : decode (.array .long) splitBytes (.string "old") = .ok (.array [.long 5, .long 6, .long 7]) := rfl
  obtain ⟨hlonger, hshorter⟩ := decode_prefix_free h .null
  exact ⟨h, hlonger [0] (by decide), hshorter [0x83, 0, 4, 10, 12] [2, 14, 0] rfl (by decide)⟩

end Docket.Blob

import Mangoxx.Lzo.Decode
import Mangoxx.Lzo.Encode

namespace Mangoxx.Lzo

open Lib Lz77

section Room

theorem lengthBytes_length {tt : Nat} (h : 0 < tt) :
    (Source.lengthBytes tt).length ≤ 1 + tt / 255 := by
  obtain ⟨k, last, hbytes, hsum, hrange⟩ := lengthBytes_eq h
  rw [hbytes, List.length_append, List.length_replicate, List.length_singleton]
  omega

theorem runHeader_length (t : Nat) : (Source.runHeader t).length ≤ 1 + t / 16 := by
  rw [Source.runHeader]
  split
  · exact Nat.le_add_right _ _
  · have := lengthBytes_length (show 0 < t - 18 by omega)
    rw [List.length_cons]
    omega

theorem runBytes_length (lits : List UInt8) :
    (runBytes lits).length ≤ lits.length + lits.length / 16 + 1 := by
  rw [runBytes]
  split
  · omega
  · have := runHeader_length lits.length
    rw [List.length_append]
    omega

theorem matchBytes_length_lt {len : Nat} (h : 4 ≤ len) (off : Nat) :
    (Source.matchBytes len off).length + 1 ≤ len := by
  rw [Source.matchBytes]
  split
  · simp only [List.length_cons, List.length_nil]
    omega
  split
  · simp only [List.length_append, List.length_cons, List.length_nil]
    split
    · simp only [List.length_cons, List.length_nil]
      omega
    · have := lengthBytes_length (show 0 < len - 33 by omega)
      rw [List.length_cons]
      omega
  · simp only [List.length_append, List.length_cons, List.length_nil]
    split
    · simp only [List.length_cons, List.length_nil]
      omega
    · have := lengthBytes_length (show 0 < len - 9 by omega)
      rw [List.length_cons]
      omega

theorem pieceBytes_length_le {p : Piece UInt8} (h : Codable p) :
    (pieceBytes p).length ≤ p.len + p.lits.length + p.lits.length / 16 := by
  have hmatch := matchBytes_length_lt h.len_ge p.off
  have hrun := runBytes_length p.lits
  rw [pieceBytes, List.length_append, tagged_length]
  omega

theorem pieces_length {out : List UInt8} {ps : List (Piece UInt8)} (hfit : AllFit out ps)
    (hps : ∀ p ∈ ps, Codable p) :
    (ps.flatMap pieceBytes).length + out.length + out.length / 16 ≤
      (expand out ps).length + (expand out ps).length / 16 := by
  induction ps generalizing out with
  | nil => simp
  | cons p ps ih =>
    have hrest := ih hfit.2 fun q hq => hps q (by simp [hq])
    have hpiece := pieceBytes_length_le (hps p (by simp))
    have hlength := length_extend hfit.1
    rw [expand_cons, List.flatMap_cons, List.length_append]
    omega

/-- The room that a stream needs. -/
theorem Encodes.length_le {stream text : List UInt8} (h : Encodes stream text) :
    stream.length ≤ text.length + text.length / 16 + 4 := by
  obtain ⟨first, ps, lead, hlead, -, hfit, hps, rfl, rfl⟩ := h
  have hpieces := pieces_length hfit fun p hp => (hps p hp).1
  have hfirst : lead.length ≤ first.length + first.length / 16 + 1 := by
    rcases hlead with ⟨-, -, rfl⟩ | ⟨hfour, rfl⟩ | ⟨-, -, rfl⟩
    · exact Nat.zero_le _
    · have := runHeader_length first.length
      rw [List.length_append]
      omega
    · rw [shortBytes, List.length_cons]
      omega
  simp only [List.length_append, endMark, List.length_cons, List.length_nil]
  omega

end Room

variable {text : List UInt8} {room : Nat}

/-- Both decompressors give back what was compressed, wherever it stood and whatever was in
`wrkmem`. -/
theorem decompress_compress (hsize : text.length ≤ 2 ^ 32 - 511) (hroom : text.length ≤ room)
    (addr : Nat) (wrkmem : Vector UInt16 (2 ^ 14)) :
    ∃ stream, lzo1x1Compress text addr wrkmem = some stream ∧
      lzo1xDecompress stream room = some (.ok, text) ∧
      lzo1xDecompressSafe stream room = some (.ok, text) := by
  obtain ⟨stream, hstream, hencodes⟩ := compress_encodes text addr wrkmem hsize
  exact ⟨stream, hstream, @Args.decompress_of_encodes ⟨stream, room, false⟩ _ hencodes hroom,
    @Args.decompress_of_encodes ⟨stream, room, true⟩ _ hencodes hroom⟩

theorem decompress_compress_zeros :
    ∃ stream, lzo1x1Compress (List.replicate 30 0) 4096 (.replicate _ 7) = some stream ∧
      lzo1xDecompress stream 30 = some (.ok, List.replicate 30 0) ∧
      lzo1xDecompressSafe stream 30 = some (.ok, List.replicate 30 0) :=
  decompress_compress (by decide) (by decide) 4096 _

/-- No input grows by more than a sixteenth and four bytes. -/
theorem compress_length (hsize : text.length ≤ 2 ^ 32 - 511) (addr : Nat)
    (wrkmem : Vector UInt16 (2 ^ 14)) :
    ∃ stream, lzo1x1Compress text addr wrkmem = some stream ∧
      stream.length ≤ text.length + text.length / 16 + 4 := by
  obtain ⟨stream, hstream, hencodes⟩ := compress_encodes text addr wrkmem hsize
  exact ⟨stream, hstream, hencodes.length_le⟩

theorem compress_length_zeros :
    ∃ stream, lzo1x1Compress (List.replicate 30 0) 4096 (.replicate _ 7) = some stream ∧
      stream.length ≤ 30 + 30 / 16 + 4 :=
  @compress_length (List.replicate 30 0) (by decide) 4096 (.replicate _ 7)

end Mangoxx.Lzo

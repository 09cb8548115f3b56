import Mangoxx.Jpge.Lossless
import Mangoxx.Jpge.Stream

namespace Mangoxx.Jpge

open Decoder

def lengthBytes (n : Nat) : List UInt8 := [.ofNat (n >>> 8), .ofNat (n &&& 0xFF)]

theorem lengthBytes_eq {n : Nat} (h : n < 2 ^ 16) :
    ∃ hi lo : UInt8, lengthBytes n = [hi, lo] ∧ hi.toNat * 256 + lo.toNat = n := by
  refine ⟨_, _, rfl, ?_⟩
  have hmask : n &&& 0xFF = n % 2 ^ 8 := Nat.and_two_pow_sub_one_eq_mod n 8
  rw [hmask, Nat.shiftRight_eq_div_pow, UInt8.toNat_ofNat', UInt8.toNat_ofNat']
  omega

def segment (marker : UInt8) (body : List UInt8) : List UInt8 :=
  [0xFF, marker] ++ lengthBytes (body.length + 2) ++ body

def Plain (s : UInt8 × List UInt8) : Prop :=
  s.1 ≠ 0xD8 ∧ s.1 ≠ 0xD9 ∧ s.1 ≠ 0xDA ∧ s.2.length + 2 < 2 ^ 16

theorem markers_segment {marker : UInt8} (hsoi : marker ≠ 0xD8) (heoi : marker ≠ 0xD9)
    {body : List UInt8} (hbody : body.length + 2 < 2 ^ 16) (n : Nat) (rest : List UInt8) :
    markers (n + 1) (segment marker body ++ rest) =
      (markers n (if marker = 0xDA then (unstuff rest).2 else rest)).map (marker :: ·) := by
  obtain ⟨hi, lo, hlength, hn⟩ := lengthBytes_eq hbody
  have hdrop : (body ++ rest).drop (hi.toNat * 256 + lo.toNat - 2) = rest :=
    List.drop_left' (by omega)
  have hroom : 2 ≤ hi.toNat * 256 + lo.toNat ∧
      hi.toNat * 256 + lo.toNat - 2 ≤ (body ++ rest).length := by
    rw [List.length_append]
    omega
  have hbytes : segment marker body ++ rest = 0xFF :: marker :: hi :: lo :: (body ++ rest) := by
    rw [segment, hlength]
    simp
  rw [hbytes, markers]
  simp only [ne_eq, not_true, if_false, hsoi, heoi, or_self, hroom, and_self, if_true, hdrop]

theorem markers_segments {segments : List (UInt8 × List UInt8)} (h : ∀ s ∈ segments, Plain s)
    (n : Nat) (rest : List UInt8) :
    markers (segments.length + n) ((segments.flatMap fun s => segment s.1 s.2) ++ rest) =
      (markers n rest).map (segments.map Prod.fst ++ ·) := by
  induction segments with
  | nil => simp
  | cons s segments ih =>
    obtain ⟨⟨hsoi, heoi, hsos, hlength⟩, hrest⟩ := List.forall_mem_cons.mp h
    have hcount : (s :: segments).length + n = segments.length + n + 1 := by
      rw [List.length_cons]
      omega
    rw [hcount, List.flatMap_cons, List.append_assoc, markers_segment hsoi heoi hlength,
      if_neg hsos, ih hrest, Option.map_map]
    rfl

theorem markers_soi (n : Nat) (rest : List UInt8) :
    markers (n + 1) (0xFF :: 0xD8 :: rest) = (markers n rest).map (0xD8 :: ·) := rfl

theorem markers_file {segments : List (UInt8 × List UInt8)} (h : ∀ s ∈ segments, Plain s)
    {sos : List UInt8} (hsos : sos.length + 2 < 2 ^ 16) (raw : List UInt8) :
    ∃ n before, markers n ([0xFF, 0xD8] ++ (segments.flatMap fun s => segment s.1 s.2) ++
      segment 0xDA sos ++ stuff raw ++ [0xFF, 0xD9]) = some (before ++ [0xD9]) ∧ 0xD9 ∉ before := by
  refine ⟨segments.length + 2 + 1, 0xD8 :: segments.map Prod.fst ++ [0xDA], ?_, ?_⟩
  · have hend : markers 1 [0xFF, 0xD9] = some [0xD9] := rfl
    have hscan : markers 2 (segment 0xDA sos ++ (stuff raw ++ [0xFF, 0xD9])) =
        some [0xDA, 0xD9] := by
      rw [markers_segment (by decide) (by decide) hsos, if_pos rfl,
        unstuff_stuff (by decide) raw [], hend]
      rfl
    simp only [List.append_assoc, List.cons_append, List.nil_append]
    rw [markers_soi, markers_segments h, hscan]
    simp
  · simp only [List.cons_append, List.mem_cons, List.mem_append, List.mem_map, not_or]
    refine ⟨by decide, ?_, by decide, List.not_mem_nil⟩
    rintro ⟨s, hs, heq⟩
    exact (h s hs).2.1 heq

section Segments

def app0Body : List UInt8 :=
  [0x4A, 0x46, 0x49, 0x46, 0, 1, 1, 0] ++ lengthBytes 1 ++ lengthBytes 1 ++ [0, 0]

def dqtBody (tables : Bool → List Int) (i : Nat) : List UInt8 :=
  .ofNat i :: (List.range 64).map fun j => .ofInt ((tables (0 < i)).getD j 0)

def sofBody (l : ImageLayout) : List UInt8 :=
  8 :: (lengthBytes l.mImageY ++ lengthBytes l.mImageX ++ [.ofNat l.mNumComponents] ++
    (List.range l.mNumComponents).flatMap fun i =>
      [.ofNat (i + 1), .ofNat (l.mCompHSamp i <<< 4 + l.mCompVSamp i), if 0 < i then 1 else 0])

def dhtBody (ac chroma : Bool) : List UInt8 :=
  .ofNat (chroma.toNat + ac.toNat <<< 4) ::
    ((dhtOf (mHuffBits ac chroma) (mHuffVal ac chroma)).bits ++
      symbols (mHuffBits ac chroma) (mHuffVal ac chroma))

def sosBody (numComponents : Nat) : List UInt8 :=
  .ofNat numComponents :: ((List.range numComponents).flatMap fun i =>
    [.ofNat (i + 1), if i = 0 then 0 else 0x11]) ++ [0, 63, 0]

def headerSegments (tables : Bool → List Int) (l : ImageLayout) : List (UInt8 × List UInt8) :=
  (0xE0, app0Body) :: ((List.range (if l.mNumComponents = 3 then 2 else 1)).map fun i =>
      (0xDB, dqtBody tables i)) ++
    (0xC0, sofBody l) ::
      (if l.mNumComponents = 3 then [false, true] else [false]).flatMap fun chroma =>
        [(0xC4, dhtBody false chroma), (0xC4, dhtBody true chroma)]

def headers (tables : Bool → List Int) (l : ImageLayout) : List UInt8 :=
  [0xFF, 0xD8] ++ ((headerSegments tables l).flatMap fun s => segment s.1 s.2) ++
    segment 0xDA (sosBody l.mNumComponents)

variable {tables : Bool → List Int} {l : ImageLayout}

theorem headerSegments_plain (hcomps : l.mNumComponents = 1 ∨ l.mNumComponents = 3) :
    ∀ s ∈ headerSegments tables l, Plain s := by
  intro s hs
  have hdht (ac chroma : Bool) : Plain (0xC4, dhtBody ac chroma) := by
    refine ⟨by simp, by simp, by simp, ?_⟩
    have hlen := mHuff_length ac chroma
    have hsegment := mHuff_segment ac chroma
    simp only [dhtBody, dhtOf, symbols, List.length_cons, List.length_append, List.length_map,
      List.length_range', List.length_take]
    omega
  simp only [headerSegments, List.mem_cons, List.mem_append, List.mem_map, List.mem_flatMap] at hs
  rcases hs with (rfl | ⟨i, -, rfl⟩) | rfl | ⟨chroma, -, rfl | rfl | h⟩
  · exact ⟨by simp, by simp, by simp, by decide⟩
  · refine ⟨by simp, by simp, by simp, ?_⟩
    simp [dqtBody]
  · refine ⟨by simp, by simp, by simp, ?_⟩
    rcases hcomps with hcomps | hcomps
    · simp [sofBody, hcomps, lengthBytes, List.range_succ]
    · simp [sofBody, hcomps, lengthBytes, List.range_succ]
  · exact hdht false chroma
  · exact hdht true chroma
  · simp at h

theorem emitDht_eq (ac chroma : Bool) (o : Output) :
    emitDht (mHuffBits ac chroma) (mHuffVal ac chroma) chroma.toNat ac o =
      o.emitBytes (segment 0xC4 (dhtBody ac chroma)) := by
  have hbody : (dhtBody ac chroma).length + 2 =
      (counts (mHuffBits ac chroma)).sum + 2 + 1 + 16 := by
    have hlen := mHuff_length ac chroma
    simp only [dhtBody, dhtOf, symbols, List.length_cons, List.length_append, List.length_map,
      List.length_range', List.length_take]
    omega
  simp only [emitDht, Output.emitMarker_eq, Output.emitWord_eq, Output.emitByte_eq,
    symbols_eq (mHuff_length ac chroma), ← Output.emitBytes_append]
  rw [segment, hbody, dhtBody, lengthBytes]
  simp [dhtOf]

theorem emitJfifApp0_eq (o : Output) : o.emitJfifApp0 = o.emitBytes (segment 0xE0 app0Body) := by
  have hlength : lengthBytes (app0Body.length + 2) =
      lengthBytes (2 + 4 + 1 + 2 + 1 + 2 + 2 + 1 + 1) :=
    rfl
  simp only [Output.emitJfifApp0, Output.emitMarker_eq, Output.emitWord_eq, Output.emitByte_eq,
    ← Output.emitBytes_append]
  rw [segment, hlength, app0Body, lengthBytes, lengthBytes]
  simp only [List.cons_append, List.nil_append]

theorem emitDqt_eq (n : Nat) (o : Output) : o.emitDqt tables n =
    o.emitBytes ((List.range (if n = 3 then 2 else 1)).flatMap fun i =>
      segment 0xDB (dqtBody tables i)) := by
  have hlength (i : Nat) : (dqtBody tables i).length + 2 = 64 + 1 + 2 := by simp [dqtBody]
  simp only [Output.emitDqt, Output.emitMarker_eq, Output.emitWord_eq, Output.emitByte_eq,
    ← Output.emitBytes_append, Output.foldl_emitBytes, segment, hlength]
  simp [dqtBody, lengthBytes]

theorem emitSof_eq (hcomps : l.mNumComponents = 1 ∨ l.mNumComponents = 3) (o : Output) :
    o.emitSof l = o.emitBytes (segment 0xC0 (sofBody l)) := by
  have hbody : (sofBody l).length + 2 = 3 * l.mNumComponents + 2 + 5 + 1 := by
    rcases hcomps with hcomps | hcomps
    · simp [sofBody, hcomps, lengthBytes, List.range_succ]
    · simp [sofBody, hcomps, lengthBytes, List.range_succ]
  simp only [Output.emitSof, Output.emitMarker_eq, Output.emitWord_eq, Output.emitByte_eq,
    ← Output.emitBytes_append, Output.foldl_emitBytes]
  rw [segment, hbody, sofBody, lengthBytes]
  simp [lengthBytes]

theorem emitSos_eq (hcomps : l.mNumComponents = 1 ∨ l.mNumComponents = 3) (o : Output) :
    o.emitSos l.mNumComponents = o.emitBytes (segment 0xDA (sosBody l.mNumComponents)) := by
  have hturn : (fun (o : Output) (i : Nat) =>
      let o := o.emitByte (.ofNat (i + 1))
      if i = 0 then o.emitByte (.ofNat (0 <<< 4 + 0)) else o.emitByte (.ofNat (1 <<< 4 + 1))) =
      fun o i => o.emitBytes [.ofNat (i + 1), if i = 0 then 0 else 0x11] := by
    funext o i
    rw [Output.emitBytes_cons, Output.emitBytes_cons, Output.emitBytes_nil]
    split
    · rfl
    · rfl
  have hbody : (sosBody l.mNumComponents).length + 2 = 2 * l.mNumComponents + 2 + 1 + 3 := by
    rcases hcomps with hcomps | hcomps
    · simp [sosBody, hcomps, List.range_succ]
    · simp [sosBody, hcomps, List.range_succ]
  rw [Output.emitSos, hturn]
  simp only [Output.emitMarker_eq, Output.emitWord_eq, Output.emitByte_eq,
    ← Output.emitBytes_append, Output.foldl_emitBytes]
  rw [segment, hbody, sosBody, lengthBytes]
  simp

theorem emitHeaders_eq (hcomps : l.mNumComponents = 1 ∨ l.mNumComponents = 3) (o : Output) :
    o.emitHeaders tables l = o.emitBytes (headers tables l) := by
  have hdhts (o : Output) : emitDhts l.mNumComponents o = o.emitBytes
      (((if l.mNumComponents = 3 then [false, true] else [false]).flatMap fun chroma =>
        [(0xC4, dhtBody false chroma), (0xC4, dhtBody true chroma)]).flatMap
          fun s => segment s.1 s.2) := by
    have hlum (ac : Bool) := emitDht_eq ac false
    have hchroma (ac : Bool) := emitDht_eq ac true
    simp only [Bool.toNat_false, Bool.toNat_true] at hlum hchroma
    rcases hcomps with hcomps | hcomps
    · simp [emitDhts, hcomps, Output.emitBytes_append, hlum]
    · simp [emitDhts, hcomps, Output.emitBytes_append, hlum, hchroma]
  rw [Output.emitHeaders]
  simp only [Output.emitMarker_eq, emitJfifApp0_eq, emitDqt_eq, emitSof_eq hcomps, hdhts,
    emitSos_eq hcomps, ← Output.emitBytes_append]
  rw [headers, headerSegments]
  simp [List.flatMap_map]

end Segments

end Mangoxx.Jpge

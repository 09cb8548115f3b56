import Mangoxx.Jpge.WholeImage

namespace Mangoxx.Jpge

open Mangoxx.Lib BitString

namespace Decoder

structure Component where
  id : UInt8
  h : Nat
  v : Nat
  tq : UInt8

structure Frame where
  lines : Nat
  samplesPerLine : Nat
  components : List Component

structure Tables where
  quantization : List (UInt8 × List UInt8)
  huffman : List (UInt8 × Dht)
  frame : Option Frame

structure Plane where
  h : Nat
  v : Nat
  quantization : List UInt8
deriving DecidableEq

/-- The blocks stand with the number of their component in the order of the scan. -/
structure Picture where
  lines : Nat
  samplesPerLine : Nat
  planes : List Plane
  blocks : List (Nat × List Int)

def Picture.step (p : Picture) (c i : Nat) : Int :=
  ((p.planes.getD c ⟨0, 0, []⟩).quantization.getD i 0).toNat

section Segments

def readQuantization : List UInt8 → Option (UInt8 × List UInt8)
  | id :: values => if values.length = 64 then some (id, values) else none
  | _ => none

def readHuffman : List UInt8 → Option (UInt8 × Dht)
  | id :: rest =>
    if rest.length = 16 + ((rest.take 16).map UInt8.toNat).sum then
      some (id, ⟨rest.take 16, rest.drop 16⟩)
    else none
  | _ => none

def readComponents : Nat → List UInt8 → Option (List Component)
  | 0, [] => some []
  | n + 1, id :: hv :: tq :: bytes =>
    (readComponents n bytes).map (⟨id, hv.toNat / 16, hv.toNat % 16, tq⟩ :: ·)
  | _, _ => none

def readFrame : List UInt8 → Option Frame
  | p :: y :: y' :: x :: x' :: n :: bytes =>
    if p = 8 then
      (readComponents n.toNat bytes).map (⟨y.toNat * 256 + y'.toNat, x.toNat * 256 + x'.toNat, ·⟩)
    else none
  | _ => none

def readSegment (t : Tables) (marker : UInt8) (body : List UInt8) : Option Tables :=
  if marker = 0xDB then
    (readQuantization body).map fun q => { t with quantization := q :: t.quantization }
  else if marker = 0xC4 then (readHuffman body).map fun d => { t with huffman := d :: t.huffman }
  else if marker = 0xC0 then (readFrame body).map fun f => { t with frame := some f }
  else if 0xE0 ≤ marker ∧ marker ≤ 0xEF then some t
  else none

end Segments

section Scan

def readSelectors : Nat → List UInt8 → Option (List (UInt8 × UInt8))
  | 0, bytes => if bytes = [0, 63, 0] then some [] else none
  | n + 1, id :: tdta :: bytes => (readSelectors n bytes).map ((id, tdta) :: ·)
  | _, _ => none

def readScanHeader : List UInt8 → Option (List (UInt8 × UInt8))
  | n :: bytes => readSelectors n.toNat bytes
  | _ => none

def ceilDiv (n m : Nat) : Nat := (n + m - 1) / m

/-- The blocks of an MCU: those of a component that is alone are not interleaved. -/
def Frame.mcu (f : Frame) : List Nat :=
  match f.components with
  | [_] => [0]
  | cs => cs.zipIdx.flatMap fun c => List.replicate (c.1.h * c.1.v) c.2

def Frame.mcus (f : Frame) : Nat :=
  match f.components with
  | [_] => ceilDiv f.lines 8 * ceilDiv f.samplesPerLine 8
  | cs => ceilDiv f.lines (8 * (cs.map Component.v).foldl max 0) *
      ceilDiv f.samplesPerLine (8 * (cs.map Component.h).foldl max 0)

def decodeBlocks (table : (ac : Bool) → Nat → Option Dht) :
    (components : List Nat) → (pred : Nat → Int) → List Bool → Option (List (List Int) × List Bool)
  | [], _, bs => some ([], bs)
  | c :: cs, pred, bs => do
    let (block, bs) ← decodeBlock (← table false c) (← table true c) (pred c) bs
    let (blocks, bs) ← decodeBlocks table cs (Function.update pred c (block.headD 0)) bs
    return (block :: blocks, bs)

def scanTable (t : Tables) (selectors : List (UInt8 × UInt8)) (ac : Bool) (c : Nat) : Option Dht :=
  selectors[c]?.bind fun s => t.huffman.lookup (if ac then 16 + s.2 % 16 else s.2 / 16)

/-- All components are in one scan, and less than a byte of ones is left in front of the end. -/
def readScan (t : Tables) (body bytes : List UInt8) : Option Picture := do
  let f ← t.frame
  let selectors ← readScanHeader body
  let (raw, rest) := unstuff bytes
  let components := (List.replicate f.mcus f.mcu).flatten
  let (blocks, padding) ← decodeBlocks (scanTable t selectors) components (fun _ => 0)
    (bytesToBits raw)
  let planes ← f.components.mapM fun c => (t.quantization.lookup c.tq).map fun q => ⟨c.h, c.v, q⟩
  if selectors.map Prod.fst = f.components.map Component.id ∧ rest = [0xFF, 0xD9] ∧
      padding.length < 8 ∧ ∀ b ∈ padding, b = true then
    return ⟨f.lines, f.samplesPerLine, planes, components.zip blocks⟩
  else none

end Scan

def readSegments : (n : Nat) → Tables → List UInt8 → Option Picture
  | n + 1, t, ff :: marker :: hi :: lo :: bytes =>
    let length := hi.toNat * 256 + lo.toNat
    if ff = 0xFF ∧ 2 ≤ length ∧ length - 2 ≤ bytes.length then
      let body := bytes.take (length - 2)
      let rest := bytes.drop (length - 2)
      if marker = 0xDA then readScan t body rest
      else (readSegment t marker body).bind fun t => readSegments n t rest
    else none
  | _, _, _ => none

def readFile : List UInt8 → Option Picture
  | ff :: soi :: bytes =>
    if ff = 0xFF ∧ soi = 0xD8 then readSegments bytes.length ⟨[], [], none⟩ bytes else none
  | _ => none

end Decoder

open Decoder

section Segments

variable {t : Decoder.Tables} {body : List UInt8}

theorem segment_eq (marker : UInt8) (hbody : body.length + 2 < 2 ^ 16) :
    ∃ hi lo : UInt8, segment marker body = 0xFF :: marker :: hi :: lo :: body ∧
      hi.toNat * 256 + lo.toNat = body.length + 2 := by
  obtain ⟨hi, lo, hlength, hn⟩ := lengthBytes_eq hbody
  exact ⟨hi, lo, by rw [segment, hlength]; rfl, hn⟩

theorem readSegments_segment {marker : UInt8} (hbody : body.length + 2 < 2 ^ 16) (n : Nat)
    (rest : List UInt8) : readSegments (n + 1) t (segment marker body ++ rest) =
      if marker = 0xDA then readScan t body rest
      else (readSegment t marker body).bind fun t => readSegments n t rest := by
  obtain ⟨hi, lo, heq, hlength⟩ := segment_eq marker hbody
  have htake : (body ++ rest).take (hi.toNat * 256 + lo.toNat - 2) = body :=
    List.take_left' (by omega)
  have hdrop : (body ++ rest).drop (hi.toNat * 256 + lo.toNat - 2) = rest :=
    List.drop_left' (by omega)
  have hroom : 2 ≤ hi.toNat * 256 + lo.toNat ∧ hi.toNat * 256 + lo.toNat - 2 ≤
      (body ++ rest).length := by
    rw [List.length_append]
    omega
  rw [heq]
  simp only [List.cons_append, readSegments, hroom, and_self, if_true, htake, hdrop]

theorem readSegments_segments {segments : List (UInt8 × List UInt8)} (h : ∀ s ∈ segments, Plain s)
    (n : Nat) (rest : List UInt8) :
    readSegments (segments.length + n) t ((segments.flatMap fun s => segment s.1 s.2) ++ rest) =
      (segments.foldlM (fun t s => readSegment t s.1 s.2) t).bind fun t =>
        readSegments n t rest := by
  induction segments generalizing t with
  | nil => simp
  | cons s segments ih =>
    obtain ⟨⟨-, -, hsos, hlength⟩, hrest⟩ := List.forall_mem_cons.mp h
    have hcount : (s :: segments).length + n = segments.length + n + 1 := by
      rw [List.length_cons]
      omega
    rw [hcount, List.flatMap_cons, List.append_assoc, readSegments_segment hlength, if_neg hsos,
      List.foldlM_cons]
    cases readSegment t s.1 s.2 with
    | none => rfl
    | some t => exact ih hrest

theorem readHuffman_dhtBody (ac chroma : Bool) : readHuffman (dhtBody ac chroma) =
    some (.ofNat (chroma.toNat + ac.toNat <<< 4),
      dhtOf (mHuffBits ac chroma) (mHuffVal ac chroma)) := by
  have hbits : (dhtOf (mHuffBits ac chroma) (mHuffVal ac chroma)).bits.length = 16 := by
    simp [dhtOf]
  have hcounts := dhtOf_counts (mHuffBits ac chroma) (mHuffVal ac chroma)
  have hsymbols : (symbols (mHuffBits ac chroma) (mHuffVal ac chroma)).length =
      (counts (mHuffBits ac chroma)).sum := by
    rw [symbols, List.length_take, Nat.min_eq_left (mHuff_length ac chroma)]
  rw [dhtBody, readHuffman, List.take_left' hbits, List.drop_left' hbits, hcounts,
    if_pos (by rw [List.length_append, hbits, hsymbols])]
  rfl

def tableBytes (table : List Int) : List UInt8 :=
  (List.range 64).map fun j => .ofInt (table.getD j 0)

theorem readQuantization_dqtBody (tables : Bool → List Int) (i : Nat) :
    readQuantization (dqtBody tables i) = some (.ofNat i, tableBytes (tables (0 < i))) := by
  rw [dqtBody, readQuantization, if_pos (by simp)]
  rfl

end Segments

section Headers

variable {img : Image} {s : Subsampling} {l : ImageLayout}

structure ImageLayout.Framed (l : ImageLayout) (img : Image) (s : Subsampling) : Prop where
  mNumComponents : l.mNumComponents = s.components
  mImageX : l.mImageX = img.width
  mImageY : l.mImageY = img.height
  mCompHSamp : ∀ i < s.components, l.mCompHSamp i = if i = 0 then s.h else 1
  mCompVSamp : ∀ i < s.components, l.mCompVSamp i = if i = 0 then s.v else 1

theorem setImage_framed (l : ImageLayout) (img : Image) (s : Subsampling) :
    ((l.setSubsampling s.code).setImage img.width img.height img.channels).Framed img s := by
  cases s with
  | yOnly =>
    refine ⟨rfl, rfl, rfl, fun i hi => ?_, fun i hi => ?_⟩
    · obtain rfl : i = 0 := Nat.lt_one_iff.mp hi
      rfl
    · obtain rfl : i = 0 := Nat.lt_one_iff.mp hi
      rfl
  | h1v1 | h2v1 | h2v2 =>
    refine ⟨rfl, rfl, rfl, fun i hi => ?_, fun i hi => ?_⟩
    · cases i <;> rfl
    · cases i <;> rfl

def frameOf (img : Image) (s : Subsampling) : Frame where
  lines := img.height
  samplesPerLine := img.width
  components := (List.range s.components).map fun i =>
    ⟨.ofNat (i + 1), if i = 0 then s.h else 1, if i = 0 then s.v else 1, if 0 < i then 1 else 0⟩

theorem readFrame_sofBody (h : l.Framed img s) (hwidth : img.width < 2 ^ 16)
    (hheight : img.height < 2 ^ 16) :
    readFrame (sofBody l) = some (frameOf img s) := by
  obtain ⟨x, x', hx, hwidth⟩ := lengthBytes_eq hwidth
  obtain ⟨y, y', hy, hheight⟩ := lengthBytes_eq hheight
  have hh := h.mCompHSamp
  have hv := h.mCompVSamp
  rw [sofBody, h.mNumComponents, h.mImageX, h.mImageY, hx, hy]
  cases s with
  | yOnly =>
    simp [readFrame, readComponents, frameOf, Subsampling.components, Subsampling.h,
      Subsampling.v, hwidth, hheight, hh 0 (by decide), hv 0 (by decide)]
  | h1v1 | h2v1 | h2v2 =>
    simp [readFrame, readComponents, frameOf, Subsampling.components, Subsampling.h,
      Subsampling.v, hwidth, hheight, hh 0 (by decide), hv 0 (by decide), hh 1 (by decide),
      hv 1 (by decide), hh 2 (by decide), hv 2 (by decide), List.range_succ]

structure HeadersRead (t : Decoder.Tables) (tables : Bool → List Int) (img : Image)
    (s : Subsampling) : Prop where
  frame : t.frame = some (frameOf img s)
  dc : ∀ c < s.components, t.huffman.lookup (selector c) = some (decoderTable false c)
  ac : ∀ c < s.components, t.huffman.lookup (16 + selector c) = some (decoderTable true c)
  quantization : ∀ c < s.components,
    t.quantization.lookup (if 0 < c then 1 else 0) = some (tableBytes (tables (0 < c)))

theorem readSegment_app0 (t : Decoder.Tables) (body : List UInt8) :
    readSegment t 0xE0 body = some t := by
  simp [readSegment]

theorem readSegment_dqt (t : Decoder.Tables) (tables : Bool → List Int) (i : Nat) :
    readSegment t 0xDB (dqtBody tables i) =
      some { t with quantization := (.ofNat i, tableBytes (tables (0 < i))) ::
        t.quantization } := by
  simp [readSegment, readQuantization_dqtBody]

theorem readSegment_dht (t : Decoder.Tables) (ac chroma : Bool) :
    readSegment t 0xC4 (dhtBody ac chroma) =
    some { t with huffman := (.ofNat (chroma.toNat + ac.toNat <<< 4),
      dhtOf (mHuffBits ac chroma) (mHuffVal ac chroma)) :: t.huffman } := by
  simp [readSegment, readHuffman_dhtBody]

theorem readSegment_sof (t : Decoder.Tables) (h : l.Framed img s) (hwidth : img.width < 2 ^ 16)
    (hheight : img.height < 2 ^ 16) :
    readSegment t 0xC0 (sofBody l) = some { t with frame := some (frameOf img s) } := by
  simp [readSegment, readFrame_sofBody h hwidth hheight]

theorem readSegments_headers (tables : Bool → List Int) (h : l.Framed img s)
    (hwidth : img.width < 2 ^ 16) (hheight : img.height < 2 ^ 16) :
    ∃ t, (headerSegments tables l).foldlM (fun t s => readSegment t s.1 s.2)
        ⟨[], [], none⟩ = some t ∧
      HeadersRead t tables img s := by
  have hframe (t : Decoder.Tables) := readSegment_sof t h hwidth hheight
  rw [headerSegments, h.mNumComponents]
  rcases components_cases s with hcomps | hcomps
  · refine ⟨⟨[(0, tableBytes (tables false))],
      [(16, decoderTable true 0), (0, decoderTable false 0)], some (frameOf img s)⟩, ?_, rfl,
      ?_, ?_, ?_⟩
    · simp [hcomps, readSegment_app0, readSegment_dqt, readSegment_dht, hframe]
      exact ⟨rfl, rfl⟩
    all_goals
      intro c hc
      obtain rfl : c = 0 := by omega
      rfl
  · refine ⟨⟨[(1, tableBytes (tables true)), (0, tableBytes (tables false))],
      [(17, decoderTable true 1), (1, decoderTable false 1), (16, decoderTable true 0),
        (0, decoderTable false 0)], some (frameOf img s)⟩, ?_, rfl, ?_, ?_, ?_⟩
    · simp [hcomps, readSegment_app0, readSegment_dqt, readSegment_dht, hframe, List.range_succ]
      exact ⟨rfl, rfl, rfl, rfl⟩
    all_goals
      intro c hc
      cases c <;> rfl

end Headers

section Scan

variable {img : Image} {s : Subsampling}

theorem readScanHeader_sosBody (s : Subsampling) : readScanHeader (sosBody s.components) =
    some ((List.range s.components).map fun i => (.ofNat (i + 1), if i = 0 then 0 else 0x11)) := by
  cases s <;> decide

theorem decodeBlocks_eq {table : Bool → Nat → Option Dht} {tables : List (UInt8 × Dht)}
    {components : List Nat} (h : ∀ c ∈ components, table false c = tables.lookup (selector c) ∧
      table true c = tables.lookup (16 + selector c)) (pred : Nat → Int) (bs : List Bool) :
    decodeBlocks table components pred bs = decodeScan tables components pred bs := by
  induction components generalizing pred bs with
  | nil => rfl
  | cons c components ih =>
    obtain ⟨⟨hdc, hac⟩, hrest⟩ := List.forall_mem_cons.mp h
    rw [decodeBlocks, decodeScan, hdc, hac]
    simp only [ih hrest]

theorem scanTable_eq (t : Decoder.Tables) {c : Nat} (hc : c < s.components) :
    let selectors : List (UInt8 × UInt8) :=
      (List.range s.components).map fun i => (.ofNat (i + 1), if i = 0 then 0 else 0x11)
    scanTable t selectors false c = t.huffman.lookup (selector c) ∧
      scanTable t selectors true c = t.huffman.lookup (16 + selector c) := by
  intro selectors
  have hselect : selectors[c]? = some (.ofNat (c + 1), if c = 0 then 0 else 0x11) := by
    rw [List.getElem?_map, List.getElem?_range hc]
    rfl
  have hnibbles : (if c = 0 then 0 else 0x11 : UInt8) / 16 = selector c ∧
      (if c = 0 then 0 else 0x11 : UInt8) % 16 = selector c := by
    rw [selector]
    split <;> decide
  rw [scanTable, scanTable, hselect, Option.bind_some, Option.bind_some, hnibbles.1, hnibbles.2]
  exact ⟨rfl, rfl⟩

def imageMcus (img : Image) (s : Subsampling) : List (Nat × List Int) :=
  JpegEncoder.codedRows img s (img.rows s)

theorem mcu_components (img : Image) (s : Subsampling) (plane : Nat → Nat → Nat → Nat)
    (row col : Nat) :
    (mcu s plane row col).map Prod.fst = (frameOf img s).mcu := by
  cases s <;> rfl

theorem imageMcus_components (img : Image) (s : Subsampling) : (imageMcus img s).map Prod.fst =
    (List.replicate (frameOf img s).mcus (frameOf img s).mcu).flatten := by
  have hmcus : (frameOf img s).mcus = img.rows s * img.cols s := by cases s <;> rfl
  have hrow (row : Nat) :
      ((List.range (img.cols s)).flatMap (mcu s (img.plane s) row)).map Prod.fst =
        (List.replicate (img.cols s) (frameOf img s).mcu).flatten := by
    rw [List.map_flatMap]
    simp only [mcu_components img]
    rw [List.flatMap_def, List.map_const', List.length_range]
  rw [imageMcus, JpegEncoder.codedRows, List.map_flatMap, hmcus]
  simp only [mcuRow, hrow]
  rw [List.flatMap_def, List.map_const', List.length_range, ← List.flatten_replicate_replicate,
    List.flatten_flatten, List.map_replicate]

def planesOf (tables : Bool → List Int) (s : Subsampling) : List Plane :=
  (List.range s.components).map fun i =>
    ⟨if i = 0 then s.h else 1, if i = 0 then s.v else 1, tableBytes (tables (0 < i))⟩

theorem lookup_planes {t : Decoder.Tables} {tables : Bool → List Int}
    (h : HeadersRead t tables img s) :
    ((frameOf img s).components.mapM fun c =>
        (t.quantization.lookup c.tq).map fun q => (⟨c.h, c.v, q⟩ : Plane)) =
      some (planesOf tables s) := by
  have hquant := h.quantization
  rcases components_cases s with hcomps | hcomps
  · have h0 := hquant 0 (by omega)
    simp at h0
    simp [frameOf, planesOf, hcomps, h0]
  · have h0 := hquant 0 (by omega)
    have h1 := hquant 1 (by omega)
    simp at h0 h1
    simp [frameOf, planesOf, hcomps, h0, h1, List.range_succ]

theorem readScan_coded {t : Decoder.Tables} {tables : Bool → List Int}
    (ht : HeadersRead t tables img s) {h : Bool → Bool → HuffTable}
    (hcanonical : ∀ ac chroma, Canonical (h ac chroma) (mHuffBits ac chroma) (mHuffVal ac chroma))
    {blocks : List (Nat × Block)} (hblocks : ∀ b ∈ blocks, b.1 < s.components ∧ b.2.InRange)
    (hcomponents : blocks.map Prod.fst = (imageMcus img s).map Prod.fst) {raw : List UInt8}
    {rest : List Bool}
    (hraw : bytesToBits raw = blocksBits h blocks (fun _ => 0) ++ rest) (hless : rest.length < 8)
    (hones : ∀ b ∈ rest, b = true) :
    readScan t (sosBody s.components) (stuff raw ++ [0xFF, 0xD9]) =
      some ⟨img.height, img.width, planesOf tables s, blocks.map fun b => (b.1, b.2.val)⟩ := by
  have hrange : Nat → -1024 ≤ (0 : Int) ∧ (0 : Int) ≤ 1023 := fun _ => by decide
  have hdecode :=
    decodeScan_bits hcanonical (fun c hc => ⟨ht.dc c hc, ht.ac c hc⟩) hblocks hrange rest
  have hlt : ∀ c ∈ blocks.map Prod.fst, c < s.components := by
    intro c hc
    obtain ⟨b, hb, rfl⟩ := List.mem_map.mp hc
    exact (hblocks b hb).1
  rw [← decodeBlocks_eq fun c hc => scanTable_eq t (hlt c hc), ← hraw, hcomponents,
    imageMcus_components] at hdecode
  have hids : ((List.range s.components).map fun i =>
      ((.ofNat (i + 1), if i = 0 then 0 else 0x11) : UInt8 × UInt8)).map Prod.fst =
        (frameOf img s).components.map Component.id := by
    simp [frameOf]
  have hzip : (List.replicate (frameOf img s).mcus (frameOf img s).mcu).flatten.zip
      (blocks.map fun b => b.2.val) = blocks.map fun b => (b.1, b.2.val) := by
    rw [← imageMcus_components, ← hcomponents, List.zip_map']
  have hmarker : (0xD9 : UInt8) ≠ 0 := by decide
  simp only [readScan, ht.frame, readScanHeader_sosBody, unstuff_stuff hmarker raw [],
    Option.bind_eq_bind, Option.bind_some, lookup_planes ht, hdecode, hids, hless, hzip, true_and]
  rw [if_pos hones]
  rfl

end Scan

end Mangoxx.Jpge

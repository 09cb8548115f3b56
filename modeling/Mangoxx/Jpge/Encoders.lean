import Mangoxx.Jpge.Scanline
import Mangoxx.Lib.History

/-! Several encoders in one process: they share the file-level variables of `jpge.c`, so that one of
them can use the quantisation tables of another. -/

universe u

namespace Mangoxx.Jpge

open Mangoxx.Lib

/-- A call of one of the public functions.  With `jpge_init` goes what `malloc` returns. -/
inductive Call where
  | init (malloc : Option (Memory UInt8)) (pPutBuf : Option (List PutBufCall → Bool))
      (width height srcChannels quality subsampling : Int)
  | processScanline (pScanline : Option (Nat → UInt8))
  | deinit

def Call.exec : Call → Statics → JpegEncoder → Statics × JpegEncoder
  | init malloc pPutBuf width height srcChannels quality subsampling, t, jpge =>
    (jpge.jpgeInit malloc pPutBuf width height srcChannels quality subsampling t).2
  | processScanline pScanline, t, jpge => (t, (jpge.jpgeProcessScanline t pScanline).2)
  | deinit, t, jpge => (t, jpge.jpgeDeinit)

namespace JpegEncoder

def Open (jpge : JpegEncoder) : Prop :=
  ¬ (jpge.enc.mPassNum < 1 ∨ jpge.enc.mPassNum > 2) ∧ jpge.enc.out.mAllStreamWritesSucceeded = true

end JpegEncoder

def Call.CodesRow : Call → JpegEncoder → Prop
  | processScanline (some _), jpge =>
    jpge.Open ∧ (jpge.enc.mMcuYOfs + 1) % 256 = jpge.layout.mMcuY
  | processScanline none, jpge => jpge.Open ∧ jpge.enc.mMcuYOfs ≠ 0
  | _, _ => False

instance (jpge : JpegEncoder) : Decidable jpge.Open := inferInstanceAs (Decidable (_ ∧ _))

instance : (call : Call) → (jpge : JpegEncoder) → Decidable (call.CodesRow jpge)
  | .processScanline (some _), jpge => inferInstanceAs (Decidable (jpge.Open ∧ _ = _))
  | .processScanline none, jpge => inferInstanceAs (Decidable (jpge.Open ∧ _ ≠ _))
  | .init .., _ => inferInstanceAs (Decidable False)
  | .deinit, _ => inferInstanceAs (Decidable False)

variable {ι : Type u} [DecidableEq ι]

structure Process (ι : Type u) where
  statics : Statics
  encoders : ι → JpegEncoder

namespace Process

/-- A fresh process; no image has been opened by the objects, which hold anything else. -/
def start (objects : ι → JpegEncoder) : Process ι := ⟨.start, fun i => (objects i).close⟩

def step (p : Process ι) (op : ι × Call) : Process ι :=
  let r := op.2.exec p.statics (p.encoders op.1)
  ⟨r.1, Function.update p.encoders op.1 r.2⟩

/-- Rows are coded only while the tables are those of the encoder's own quality. -/
def OwnTables (p : Process ι) (op : ι × Call) : Prop :=
  op.2.CodesRow (p.encoders op.1) → p.statics.mLastQuality = (p.encoders op.1).mQuality

instance (p : Process ι) (op : ι × Call) : Decidable (p.OwnTables op) :=
  inferInstanceAs (Decidable (_ → _))

end Process

/-- The tables are those of the remembered quality, except in the beginning. -/
def Statics.Consistent (t : Statics) : Prop :=
  t.mLastQuality ≠ 0 → t.mQuantizationTables = Statics.tablesOf t.mLastQuality

namespace Statics

variable {t : Statics} {quality : Int}

@[simp] theorem setTables_mLastQuality : (t.setTables quality).mLastQuality = quality := by
  rw [setTables]
  split
  · rfl
  · rename_i h
    exact not_not.mp h

theorem Consistent.setTables (ht : t.Consistent) (hquality : quality ≠ 0) :
    (t.setTables quality).mQuantizationTables = tablesOf quality := by
  rw [Statics.setTables]
  split
  · rfl
  · rename_i h
    have heq := not_not.mp h
    rw [ht (by rwa [heq]), heq]

theorem Consistent.ext {t t' : Statics} (ht : t.Consistent) (ht' : t'.Consistent)
    (hquality : t.mLastQuality = t'.mLastQuality) (hne : t.mLastQuality ≠ 0)
    (hhuff : t.mHuffInitialized = t'.mHuffInitialized) : t = t' := by
  have htables : t.mQuantizationTables = t'.mQuantizationTables := by
    rw [ht hne, ht' (hquality ▸ hne), hquality]
  cases t
  cases t'
  simp only at hquality htables hhuff
  rw [hquality, htables, hhuff]

end Statics

namespace JpegEncoder

variable {jpge : JpegEncoder}

section Process

variable (t t' : Statics) (pScanline : Option (Nat → UInt8))

theorem process_closed (h : ¬ jpge.Open) : (jpge.jpgeProcessScanline t pScanline).2 = jpge := by
  rw [Open, not_and_or, not_not] at h
  by_cases hdone : jpge.enc.mPassNum < 1 ∨ jpge.enc.mPassNum > 2
  · simp only [jpgeProcessScanline, if_pos hdone]
  · have hfailed := h.resolve_left hdone
    simp only [jpgeProcessScanline, if_neg hdone, if_neg hfailed]

theorem process_open (h : jpge.Open) : (jpge.jpgeProcessScanline t pScanline).2 =
    match pScanline with
    | none => jpge.processEndOfImage t
    | some pScanline => jpge.loadMcu t pScanline := by
  obtain ⟨hdone, hsucceeded⟩ := h
  cases pScanline with
  | none => simp only [jpgeProcessScanline, if_neg hdone, hsucceeded, if_true]
  | some pScanline => simp only [jpgeProcessScanline, if_neg hdone, hsucceeded, if_true]

theorem process_congr (h : ¬ (Call.processScanline pScanline).CodesRow jpge) :
    (jpge.jpgeProcessScanline t pScanline).2 = (jpge.jpgeProcessScanline t' pScanline).2 := by
  by_cases hopen : jpge.Open
  · rw [process_open t pScanline hopen, process_open t' pScanline hopen]
    cases pScanline with
    | none =>
      have hofs : jpge.enc.mMcuYOfs = 0 := not_not.mp fun hofs => h ⟨hopen, hofs⟩
      simp [processEndOfImage, Encoder.processEndOfImage, hofs]
    | some pScanline =>
      have hmore : (jpge.enc.mMcuYOfs + 1) % 256 ≠ jpge.layout.mMcuY :=
        fun hfull => h ⟨hopen, hfull⟩
      simp only [loadMcu_eq _ _ _ rfl, if_neg hmore]
  · rw [process_closed t pScanline hopen, process_closed t' pScanline hopen]

theorem processMcuRow_mQuality : (jpge.processMcuRow t).mQuality = jpge.mQuality :=
  processMcuRow_keeps (P := fun jpge' => jpge'.mQuality = jpge.mQuality) t
    (fun _ _ _ h => h) rfl

theorem process_mQuality : (jpge.jpgeProcessScanline t pScanline).2.mQuality = jpge.mQuality := by
  by_cases hopen : jpge.Open
  · rw [process_open t pScanline hopen]
    cases pScanline with
    | none =>
      simp only [processEndOfImage]
      split
      · rw [processMcuRow_mQuality]
        split
        · rfl
        · rfl
      · rfl
    | some pScanline =>
      simp only [loadMcu_eq _ _ _ rfl]
      split
      · exact processMcuRow_mQuality t
      · rfl
  · rw [process_closed t pScanline hopen]

end Process

/-- Either the call fails before the file-level variables are touched, or it sets them up for its
quality. -/
theorem jpgeInit_cases (jpge : JpegEncoder) (malloc : Option (Memory UInt8))
    (pPutBuf : Option (List PutBufCall → Bool))
    (width height srcChannels quality subsampling : Int) :
    (∃ closed : JpegEncoder, closed.enc.mPassNum = 0 ∧ ∀ t,
      (jpge.jpgeInit malloc pPutBuf width height srcChannels quality subsampling t).2 =
        (t, closed)) ∨
    (∃ opened : (Bool → List Int) → JpegEncoder, 1 ≤ quality ∧
      (∀ tables, (opened tables).mQuality = quality) ∧ ∀ t,
        (jpge.jpgeInit malloc pPutBuf width height srcChannels quality subsampling t).2 =
          ((t.setTables quality).setHuff, opened (t.setTables quality).mQuantizationTables)) := by
  cases pPutBuf with
  | none => exact .inl ⟨jpge.close, rfl, fun _ => rfl⟩
  | some mPutBuf =>
    by_cases hinvalid : (width < 1 ∨ height < 1) ∨
        (srcChannels ≠ 1 ∧ srcChannels ≠ 3 ∧ srcChannels ≠ 4) ∨
        quality < 1 ∨ quality > 100 ∨ subsampling > 3
    · exact .inl ⟨jpge.close, rfl, fun t => by simp only [jpgeInit, if_pos hinvalid]⟩
    · cases malloc with
      | none => exact .inl ⟨_, rfl, fun t => by simp only [jpgeInit, if_neg hinvalid, jpgOpen]; rfl⟩
      | some mem =>
        refine .inr ⟨fun tables => { jpge.close with
          mQuality := quality
          mSubsampling := subsampling
          layout := (jpge.close.layout.setSubsampling subsampling).setImage width.toNat height.toNat
            srcChannels.toNat
          mMcuLines := mem
          enc := .start (Output.emitHeaders tables
            ((jpge.close.layout.setSubsampling subsampling).setImage width.toNat height.toNat
              srcChannels.toNat)
            { jpge.close.enc.out with
              mPutBuf := mPutBuf
              mPOutBuf := 0
              mOutBufLeft := outBufSize }) },
          by omega, fun _ => rfl, fun t => ?_⟩
        simp only [jpgeInit, if_neg hinvalid, jpgOpen]
        rfl

end JpegEncoder

section Runs

open History JpegEncoder

/-- How encoder `i` in the process stands to the encoder that is alone in a process of its own. -/
structure Alike (i : ι) (p alone : Process ι) : Prop where
  encoder : p.encoders i = alone.encoders i
  consistent : p.statics.Consistent
  consistentAlone : alone.statics.Consistent
  huff : (p.encoders i).Open → p.statics.mHuffInitialized = true
  huffAlone : (p.encoders i).Open → alone.statics.mHuffInitialized = true
  quality : (p.encoders i).Open → alone.statics.mLastQuality = (p.encoders i).mQuality ∧
    1 ≤ (p.encoders i).mQuality

theorem Alike.local {i : ι} {p alone : Process ι} (h : Alike i p alone) {jpge : JpegEncoder}
    (hquality : jpge.Open → jpge.mQuality = (p.encoders i).mQuality ∧ (p.encoders i).Open) :
    Alike i ⟨p.statics, Function.update p.encoders i jpge⟩
      ⟨alone.statics, Function.update alone.encoders i jpge⟩ := by
  constructor <;> simp only [Function.update_self]
  · exact h.consistent
  · exact h.consistentAlone
  · exact fun hopen => h.huff (hquality hopen).2
  · exact fun hopen => h.huffAlone (hquality hopen).2
  · intro hopen
    rw [(hquality hopen).1]
    exact h.quality (hquality hopen).2

theorem Statics.Consistent.opened {t : Statics} (ht : t.Consistent) {quality : Int}
    (hquality : 1 ≤ quality) :
    ((t.setTables quality).setHuff).Consistent := by
  intro _
  have htables := ht.setTables (show quality ≠ 0 by omega)
  have hlast : (t.setTables quality).setHuff.mLastQuality = quality := setTables_mLastQuality
  rw [hlast]
  exact htables

theorem not_open_of_passNum {jpge : JpegEncoder} (h : jpge.enc.mPassNum = 0) : ¬ jpge.Open := by
  rintro ⟨hpass, -⟩
  exact hpass (.inl (h ▸ Nat.zero_lt_one))

theorem Alike.init {i : ι} {p alone : Process ι} (h : Alike i p alone)
    (malloc : Option (Memory UInt8)) (pPutBuf : Option (List PutBufCall → Bool))
    (width height srcChannels quality subsampling : Int) :
    let call := Call.init malloc pPutBuf width height srcChannels quality subsampling
    Alike i (p.step (i, call)) (alone.step (i, call)) := by
  intro call
  rcases jpgeInit_cases (p.encoders i) malloc pPutBuf width height srcChannels quality
      subsampling with
    ⟨closed, hpass, hinit⟩ | ⟨opened, hquality, hown, hinit⟩
  · have hstep : p.step (i, call) = ⟨p.statics, Function.update p.encoders i closed⟩ := by
      simp only [Process.step, call, Call.exec, hinit]
    have halone : alone.step (i, call) =
        ⟨alone.statics, Function.update alone.encoders i closed⟩ := by
      simp only [Process.step, call, Call.exec, ← h.encoder, hinit]
    rw [hstep, halone]
    exact h.local fun hopen => absurd hopen (not_open_of_passNum hpass)
  · have htables := h.consistent.setTables (show quality ≠ 0 by omega)
    have htables' := h.consistentAlone.setTables (show quality ≠ 0 by omega)
    have hstep : p.step (i, call) = ⟨(p.statics.setTables quality).setHuff,
        Function.update p.encoders i (opened (Statics.tablesOf quality))⟩ := by
      simp only [Process.step, call, Call.exec, hinit, htables]
    have halone : alone.step (i, call) = ⟨(alone.statics.setTables quality).setHuff,
        Function.update alone.encoders i (opened (Statics.tablesOf quality))⟩ := by
      simp only [Process.step, call, Call.exec, ← h.encoder, hinit, htables']
    rw [hstep, halone]
    constructor <;> simp only [Function.update_self]
    · exact h.consistent.opened hquality
    · exact h.consistentAlone.opened hquality
    · exact fun _ => rfl
    · exact fun _ => rfl
    · intro _
      rw [hown]
      exact ⟨Statics.setTables_mLastQuality, hquality⟩

theorem Alike.processScanline {i : ι} {p alone : Process ι} (h : Alike i p alone)
    (pScanline : Option (Nat → UInt8)) (hown : p.OwnTables (i, .processScanline pScanline)) :
    Alike i (p.step (i, .processScanline pScanline))
      (alone.step (i, .processScanline pScanline)) := by
  obtain ⟨jpge, hjpge⟩ : ∃ jpge, jpge =
      ((p.encoders i).jpgeProcessScanline p.statics pScanline).2 :=
    ⟨_, rfl⟩
  have hsame : ((p.encoders i).jpgeProcessScanline alone.statics pScanline).2 = jpge := by
    rw [hjpge]
    by_cases hcodes : (Call.processScanline pScanline).CodesRow (p.encoders i)
    · have hopen : (p.encoders i).Open := by
        cases pScanline with
        | none => exact hcodes.1
        | some pScanline => exact hcodes.1
      obtain ⟨hquality, hpos⟩ := h.quality hopen
      have hlast := hown hcodes
      have hstatics : alone.statics = p.statics :=
        h.consistentAlone.ext h.consistent (hquality.trans hlast.symm) (by omega)
          ((h.huffAlone hopen).trans (h.huff hopen).symm)
      rw [hstatics]
    · exact process_congr _ _ _ hcodes
  have hstep : p.step (i, .processScanline pScanline) =
      ⟨p.statics, Function.update p.encoders i jpge⟩ := by
    simp only [Process.step, Call.exec, ← hjpge]
  have halone : alone.step (i, .processScanline pScanline) =
      ⟨alone.statics, Function.update alone.encoders i jpge⟩ := by
    simp only [Process.step, Call.exec, ← h.encoder, hsame]
  rw [hstep, halone]
  refine h.local fun hopen => ⟨hjpge ▸ process_mQuality _ _, ?_⟩
  by_contra hclosed
  rw [process_closed _ _ hclosed] at hjpge
  exact hclosed (hjpge ▸ hopen)

theorem Alike.own {i : ι} {p alone : Process ι} (h : Alike i p alone) (call : Call)
    (hown : p.OwnTables (i, call)) : Alike i (p.step (i, call)) (alone.step (i, call)) := by
  cases call with
  | init malloc pPutBuf width height srcChannels quality subsampling =>
    exact h.init malloc pPutBuf width height srcChannels quality subsampling
  | processScanline pScanline => exact h.processScanline pScanline hown
  | deinit =>
    have hclosed : ¬ (p.encoders i).jpgeDeinit.Open := not_open_of_passNum rfl
    simp only [Process.step, Call.exec, ← h.encoder]
    exact h.local fun hopen => absurd hopen hclosed

theorem Alike.other {i j : ι} {p alone : Process ι} (h : Alike i p alone) (call : Call)
    (hij : i ≠ j) : Alike i (p.step (j, call)) alone := by
  have hencoder : (p.step (j, call)).encoders i = p.encoders i := Function.update_of_ne hij _ _
  obtain ⟨hconsistent, hhuff⟩ : (p.step (j, call)).statics.Consistent ∧
      (p.statics.mHuffInitialized = true → (p.step (j, call)).statics.mHuffInitialized = true) := by
    cases call with
    | init malloc pPutBuf width height srcChannels quality subsampling =>
      simp only [Process.step, Call.exec]
      rcases jpgeInit_cases (p.encoders j) malloc pPutBuf width height srcChannels quality
          subsampling with
        ⟨closed, -, hinit⟩ | ⟨opened, hquality, -, hinit⟩
      · rw [hinit]
        exact ⟨h.consistent, id⟩
      · rw [hinit]
        exact ⟨h.consistent.opened hquality, fun _ => rfl⟩
    | processScanline pScanline => exact ⟨h.consistent, id⟩
    | deinit => exact ⟨h.consistent, id⟩
  refine ⟨hencoder.trans h.encoder, hconsistent, h.consistentAlone, ?_, ?_, ?_⟩
  · rw [hencoder]
    exact fun hopen => hhuff (h.huff hopen)
  · rw [hencoder]
    exact h.huffAlone
  · rw [hencoder]
    exact h.quality

theorem run_alike (objects : ι → JpegEncoder) {ops : List (ι × Call)}
    (hown : Each Process.step Process.OwnTables (Process.start objects) ops) (i : ι) :
    Alike i (run Process.step (Process.start objects) ops)
      (run Process.step (Process.start objects) (ops.filter fun op => op.1 = i)) := by
  induction ops using List.reverseRecOn with
  | nil =>
    have hclosed : ¬ ((Process.start objects).encoders i).Open := not_open_of_passNum rfl
    exact ⟨rfl, fun h => absurd rfl h, fun h => absurd rfl h, fun hopen => absurd hopen hclosed,
      fun hopen => absurd hopen hclosed, fun hopen => absurd hopen hclosed⟩
  | append_singleton ops op ih =>
    have hbefore : Each Process.step Process.OwnTables (Process.start objects) ops := by
      intro pre o post heq
      exact hown pre o (post ++ [op]) (by simp [heq])
    have halike := ih hbefore
    obtain ⟨j, call⟩ := op
    rw [run, List.foldl_append, List.foldl_cons, List.foldl_nil, List.filter_append]
    by_cases hij : j = i
    · subst hij
      have hone : [(j, call)].filter (fun op => op.1 = j) = [(j, call)] := by simp
      rw [hone, run, List.foldl_append]
      exact halike.own call (hown ops (j, call) [] rfl)
    · have hnone : [(j, call)].filter (fun op => op.1 = i) = [] := by simp [hij]
      rw [hnone, List.append_nil]
      exact halike.other call (Ne.symm hij)

/-- While rows are coded with the tables of the encoder's own quality only, every encoder does what
it does alone in a fresh process. -/
theorem encoders_independent (objects : ι → JpegEncoder) {ops : List (ι × Call)}
    (hown : Each Process.step Process.OwnTables (Process.start objects) ops) (i : ι) :
    ((run Process.step (Process.start objects) ops).encoders i).enc.out.calls =
      ((run Process.step (Process.start objects) (ops.filter fun op => op.1 = i)).encoders
        i).enc.out.calls := by
  rw [(run_alike objects hown i).encoder]

def openWhite (quality : Int) : Call :=
  .init (some fun _ => 0) (some fun _ => true) 8 8 1 quality 0

def codeWhite : List Call :=
  List.replicate 8 (.processScanline (some fun _ => 255)) ++ [.processScanline none]

theorem equal_qualities_independent :
    let ops := (false, openWhite 90) :: (true, openWhite 90) :: codeWhite.map fun call =>
      (false, call)
    ((run Process.step (Process.start fun _ : Bool => blank) ops).encoders false).enc.out.calls =
      ((run Process.step (Process.start fun _ : Bool => blank)
        (ops.filter fun op => op.1 = false)).encoders false).enc.out.calls := by
  intro ops
  exact encoders_independent (fun _ => blank) (show Each Process.step Process.OwnTables
    (Process.start fun _ => blank) ops by decide +kernel) false

/-- Opened with quality 1, the second encoder makes the first one code with its tables. -/
theorem other_quality_spoils :
    let ops := (false, openWhite 100) :: (true, openWhite 1) :: codeWhite.map fun call =>
      (false, call)
    ((run Process.step (Process.start fun _ : Bool => blank) ops).encoders false).enc.out.calls ≠
      ((run Process.step (Process.start fun _ : Bool => blank)
        (ops.filter fun op => op.1 = false)).encoders false).enc.out.calls := by
  decide +kernel

end Runs

end Mangoxx.Jpge

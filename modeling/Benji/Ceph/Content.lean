import Benji.Backup.Differential
import Benji.Ceph.Backup

/-! What the chain takes a differential backup to do is what `backup` does. -/
namespace Benji
open Lib

variable {κ : Type}

/-- The bytes of the base version. -/
def baseBytes (w : World κ) (base : Option String) : Bytes :=
  match baseVersion w base with
  | some b => (List.range b.size).map (versionByte w b)
  | none => []

section Content
variable {S : Settings κ} {version v : Version} {io : Source} {hints : List Hint}
  {base : Option String} {w u start : World κ} {sets : List ℕ × List ℕ} {L : Loop κ}

theorem getD_baseBytes (i : ℕ) : (baseBytes w base).getD i 0 = baseByte w base i := by
  unfold baseBytes baseByte
  cases baseVersion w base with
  | none => rfl
  | some b =>
    by_cases hi : i < b.size
    · simp [hi]
    · simp [hi, versionByte]

theorem Source.getD_data (i : ℕ) : io.data.getD i 0 = io.byteAt i := by
  rw [List.getD_eq_getElem?_getD, Source.byteAt]

theorem correctHints_of_correctDiff (h : Ceph.CorrectDiff (baseBytes w base) io.data hints) :
    CorrectHints w base io hints where
  inside := h.1
  uncovered := by
    intro i hi hno
    have heq := h.2.1 i hi hno
    rw [getD_baseBytes, Source.getD_data] at heq
    exact heq
  sparse := by
    intro i hi hcovered hno
    have heq := h.2.2 i hi hcovered hno
    rw [Source.getD_data] at heq
    exact heq

theorem not_losesBlock {idx : ℕ}
    (hr : BackupReturned S version io (some hints) base w v start sets L u)
    (hfresh : Fresh version w)
    (h : ¬ Ceph.OutgrowsBlock v.blockSize (baseBytes w base) io.data hints) :
    ¬ LosesBlock w base io hints idx := by
  rintro ⟨b, hb, hlast, hpart, hle, hno, -⟩
  apply h
  have hlength : (baseBytes w base).length = b.size := by simp [baseBytes, hb]
  have hbs : b.blockSize = v.blockSize := (hr.base_spec hfresh hb).1
  rw [Ceph.OutgrowsBlock, hlength, ← hbs]
  refine ⟨hpart, hle, ?_⟩
  have hidx : b.size ⌈/⌉ b.blockSize - 1 = idx := by
    rw [Version.blocksCount] at hlast
    omega
  rw [hidx]
  exact hno

variable [DecidableEq κ] {v' : Version} {sched : Schedule}

/-- With hints that fit, and unless a partial block is outgrown, the version reads as the source:
`versionContent` is the source there. -/
theorem reads_of_correctDiff (hp : 0 < S.blocksPerCall) (hb : 0 < S.blockSize)
    (hinj : Function.Injective S.dataHexdigest) (hfresh : Fresh version w)
    (hrows : RowsIntact S.dataHexdigest version.storage.id w) (hbase : BaseIntact w base)
    (h : (backup S version (some io) (some hints) base sched).Returns w v' u)
    (hcontent : Ceph.CorrectDiff (baseBytes w base) io.data hints ∧
      ¬ Ceph.OutgrowsBlock v'.blockSize (baseBytes w base) io.data hints) :
    ReadsAsSource io v' u := by
  obtain ⟨_, v, start, sets, L, hio, rfl, hr⟩ := backup_returned hp hinj hfresh hrows h
  obtain rfl := Option.some.inj hio
  have hhints := correctHints_of_correctDiff hcontent.1
  intro idx hi
  have hs := hr.settled idx hi
  have hwanted := (wanted_eq_iff hp (hr.blockSize_pos hb) hr hfresh hrows hbase hhints hi).mpr
    (not_losesBlock hr hfresh hcontent.2)
  rw [hwanted] at hs
  constructor
  · have hdata := hs.data
    rw [Version.sourceBlock, ← hs.size] at hdata
    exact hdata
  · rw [← hr.size]
    exact hs.size

end Content

end Benji

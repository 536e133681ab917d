import MmkvGo.Crash.Append
import MmkvGo.Lib.Crc32Burst
import MmkvGo.Store.Agree
import MmkvGo.Store.WrongKey

/-!
Damage to the data file that no process did: a burst of at most 32 bits, which is any single bit and any single byte,
somewhere in the bytes that the meta names.  Every path that loads compares the CRC of those bytes before it parses
them, and no burst leaves the CRC what it was.  So after any run of any number of processes, a reader refuses the files
and `IsFileValid` says no; an open for writing serves the map of the last write-back if the burst is behind it, and no
pair at all if it is not (`damage_never_served`).
-/

namespace MmkvGo.Crash

open MmkvGo.Lib MmkvGo.Wire MmkvGo.Crypt MmkvGo.Store MmkvGo.Multi Std

/-- The files `t` are the files `d` after a burst in the region.  Before and after the region anything may have changed. -/
structure Hit (d t : Disk) : Prop where
  crc : t.crc = d.crc
  length : t.data.length = d.data.length
  burst : Crc32.Burst (currentRegion d) (currentRegion t)

section Hit

variable {crypt : Option Cipher} {d t : Disk} {mi : MetaInfo} {dict : Dict} {s : Snapshot}

lemma currentRegion_blank (hblank : Blank d) : currentRegion d = [] := by
  rcases parseMeta_blank hblank with hparse | hparse
  · rw [currentRegion_of_parse hparse]
    exact Disk.region_zero d
  · rw [currentRegion, hparse]

lemma Hit.image (h : Hit d t) (hstored : Stored crypt d mi dict) : Image crypt d mi dict :=
  hstored.resolve_right fun hblank => h.burst.ne_nil (currentRegion_blank hblank.1)

lemma Hit.version (h : Hit d t) (himage : Image crypt d mi dict) : mi.version = versionFlag := by
  rcases himage.current with hver | ⟨rfl, -⟩
  · exact hver
  · refine absurd ?_ h.burst.ne_nil
    rw [currentRegion_of_parse himage.parse]
    exact Disk.region_zero d

lemma Hit.parse (h : Hit d t) (himage : Image crypt d mi dict) : parseMeta t.crc = .ok mi := by
  rw [h.crc, himage.parse]

lemma Hit.mismatch (h : Hit d t) (himage : Image crypt d mi dict) :
    Crc32.checksum (t.region mi.actualSize) ≠ mi.crcDigest := by
  have hburst := h.burst
  rw [currentRegion_of_parse himage.parse, currentRegion_of_parse (h.parse himage)] at hburst
  rw [← himage.crc]
  exact hburst.checksum_ne.symm

lemma Hit.damaged (h : Hit d t) (himage : Image crypt d mi dict) : Damaged t := by
  have hver := h.version himage
  have hactual : t.actualSize mi = mi.actualSize := by rw [Disk.actualSize, hver]; rfl
  have hfits := himage.fits
  have hbounded := himage.bounded
  refine ⟨mi, h.parse himage, by rw [hver]; decide, by rw [hactual, h.length]; omega, ?_⟩
  rw [hactual, toNat_four_add (by omega)]
  exact h.mismatch himage

lemma not_isFileValid_of_damaged (h : Damaged t) : isFileValid t = false := by
  obtain ⟨mi, hparse, hver, hroom, hcrc⟩ := h
  rw [isFileValid, hparse]
  exact (if_neg (UInt32.not_lt.2 hver)).trans ((if_neg (Nat.not_lt.2 hroom)).trans (beq_eq_false_iff_ne.2 hcrc))

lemma Hit.last (h : Hit d t) (himage : Image crypt d mi dict) (hlast : Confirmed crypt mi s) (hstanding : Standing d mi s)
    (hne : t.region mi.lastActualSize ≠ s.region) : Crc32.checksum (t.region mi.lastActualSize) ≠ mi.lastCRCDigest := by
  have hburst := h.burst
  rw [currentRegion_of_parse himage.parse, currentRegion_of_parse (h.parse himage)] at hburst
  have hcut : ∀ d : Disk, (d.region mi.actualSize).take mi.lastActualSize.toNat = d.region mi.lastActualSize :=
    fun d => slice_take_add hstanding.le
  have htake := hburst.take mi.lastActualSize.toNat
  rw [hcut, hcut, hstanding.region] at htake
  rw [← hlast.crc]
  exact (htake.resolve_left hne.symm).checksum_ne.symm

lemma hit_set (hparse : parseMeta d.crc = .ok mi) {bs : Bytes} (hbs : d.region mi.actualSize = bs) {i : ℕ}
    (hi : i < bs.length) {b : UInt8} (hne : bs[i] ≠ b) : Hit d { d with data := d.data.set (4 + i) b } := by
  have hregion : ({ d with data := d.data.set (4 + i) b } : Disk).region mi.actualSize = bs.set i b := by
    rw [← hbs]
    simp only [Disk.region, slice, List.take_set, List.drop_set]
    rw [if_neg (by omega), Nat.add_sub_cancel_left]
  refine ⟨rfl, List.length_set, ?_⟩
  rw [currentRegion_of_parse hparse, currentRegion_of_parse (d := { d with data := d.data.set (4 + i) b }) hparse, hbs,
    hregion]
  exact Crc32.burst_set hi hne

end Hit

section Runs

variable {ι : Type} [DecidableEq ι] {P : Platform}

/-- **No damaged byte is served.**  After any run of any number of processes, files that a burst of at most 32 bits hit
are refused by a reader and by `IsFileValid`; an open for writing serves the last write-back, where its bytes are whole,
and else an empty map. -/
theorem damage_never_served {d : Disk} {acts : List (Move ι)} (hblank : Blank d)
    (hacts : Along (Move.Plain P) (Cluster.step P) (Cluster.init d) acts) :
    let w := run (Cluster.step P) (Cluster.init d) acts
    let last := lastWriteback Cluster.disk Board.content (Cluster.step P) Board.step (Cluster.init d)
      (Board.init .empty) .empty acts
    ∀ t, Hit w.disk t →
      Reader.openReader t none = .error .crcMismatch ∧ isFileValid t = false ∧
        ∀ cfg sys, cfg.readOnly = false → cfg.cryptKey = [] → cfg.recover = false →
          ∃ m, (World.start P cfg sys t).inst = .ok m ∧
            if slice t.data 4 (4 + last.region.length) = last.region then m.content = last.content else m.dict = ∅ := by
  obtain ⟨⟨mi, dict, hserved, hlast, hstanding⟩, -, -⟩ :=
    logged_invariant (fun _ _ _ _ => step_backed) (backed_init hblank) hacts
  intro w last t ht
  have himage : Image none w.disk mi dict := ht.image hserved.stored
  refine ⟨(openReader_crcMismatch_iff none).2 (ht.damaged himage), not_isFileValid_of_damaged (ht.damaged himage), ?_⟩
  intro cfg sys hro hplain hrecover
  have hcfg : cfg.crypt P = none := by rw [Config.crypt, if_pos hplain]
  have hparse := ht.parse himage
  have hver := ht.version himage
  have hlen : t.data.length = w.disk.data.length := ht.length
  have hbounded := himage.bounded
  have hfits : 4 + mi.actualSize.toNat ≤ t.data.length := by rw [hlen]; exact himage.fits
  have hle := hstanding.le
  have hregion : slice t.data 4 (4 + last.region.length) = t.region mi.lastActualSize := by
    rw [hlast.length]
    rfl
  rw [hregion]
  split
  · next hwhole =>
    exact reopens_last hparse (.inl hver) hbounded hfits (ht.mismatch himage) hro (by rw [hcfg]; exact hlast) (by omega)
      hwhole sys
  · next hgone =>
    exact reopens_discarded hparse hver hbounded hfits (ht.mismatch himage) (by omega) (by omega)
      (ht.last himage hlast hstanding hgone) hro hrecover sys

end Runs

/-! ### One bad byte -/

lemma hit_afterSet : Hit afterSet.disk { afterSet.disk with data := afterSet.disk.data.set 10 7 } := by
  have hregion := region_firstDisk (P := linux) shared calm [97] (.bool true) (by decide)
  exact hit_set set_bothOpen.2.image.parse hregion (i := 6) (by decide) (by decide)

/-- One process sets a key, and then a byte of the pair goes bad. -/
theorem openBothAndSet_damaged :
    let w := run (Cluster.step linux) (Cluster.init ⟨[], []⟩) openBothAndSet
    let last := lastWriteback Cluster.disk Board.content (Cluster.step linux) Board.step (Cluster.init ⟨[], []⟩)
      (Board.init .empty) .empty openBothAndSet
    let t : Disk := { w.disk with data := w.disk.data.set 10 7 }
    Reader.openReader t none = .error .crcMismatch ∧ isFileValid t = false ∧
      ∃ m, (World.start linux defaults calm t).inst = .ok m ∧
        if slice t.data 4 (4 + last.region.length) = last.region then m.content = last.content else m.dict = ∅ := by
  have hdamage := damage_never_served blank_absent openBothAndSet_plain
  have hhit := hit_afterSet
  rw [← run_openBothAndSet] at hhit
  obtain ⟨hreader, hvalid, hopen⟩ := hdamage _ hhit
  exact ⟨hreader, hvalid, hopen defaults calm rfl rfl rfl⟩

end MmkvGo.Crash

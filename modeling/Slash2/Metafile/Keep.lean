/-
# What a conversion keeps

The first pass of a conversion leaves a whole copy in the temporary file, or the metadata file as
it was. The second pass writes no bmap, since it looks for them in the file it has emptied.
Besides, `mds_ino_read_v1` does not take over the flags, and a gap between two bmaps ends the
conversion with an error.

Key theorem: `update_keeps_iff`.
-/
import Slash2.Lib.Slots
import Slash2.Metafile.Update

namespace Slash2.Metafile

open Lib Lib.Bytes Residency

variable {F f : List Byte} {v : InoV1} {bs : List BmapOndisk} {x : InoxOd} {c : Call} {d : Disk}

/-! ### Files of the current format -/

section Files

variable (crc64 : List Byte → BitVec 64)

theorem inoSize : InoOd.layout.size = 64 := rfl

theorem inoxSize : InoxOd.layout.size = 744 := rfl

theorem bmapOdSz_eq : bmapOdSz = 1192 := rfl

theorem bmapOff_eq (n : ℕ) : bmapOff n = 1192 * n + 1536 := rfl

theorem bmapOffV1_eq (n : ℕ) : bmapOffV1 n = 1192 * n + 4096 := rfl

def Headless (f : List Byte) : Prop :=
  f = [] ∨ pread 0 (InoOd.layout.size + 8) f = List.replicate (InoOd.layout.size + 8) 0

theorem Headless.pwrite (h : Headless f) {off : ℕ} (bs : List Byte)
    (hoff : InoOd.layout.size + 8 ≤ off) : Headless (pwrite off bs f) := by
  right
  rcases h with rfl | h
  · exact pread_pwrite_gap (Nat.le_refl 0) (by omega)
  have hlen : InoOd.layout.size + 8 ≤ f.length := by
    have := congrArg List.length h
    rw [pread, List.length_take, List.drop_zero, List.length_replicate] at this
    omega
  rw [pread_pwrite_before_of_le (by omega) (by omega), h]

/-- The file holds the bmaps `bs` and nothing else yet. -/
structure Copied (bs : List BmapOndisk) (f : List Byte) : Prop where
  bmap : ∀ n b, bs[n]? = some b → pread (bmapOff n) bmapOdSz f = block crc64 BmapOndisk.layout b
  length : f.length = if bs = [] then 0 else bmapOff bs.length
  headless : Headless f

theorem Copied.nil : Copied crc64 [] [] := ⟨by simp, by simp, .inl rfl⟩

variable {crc64}

theorem Copied.snoc (h : Copied crc64 bs f) (b : BmapOndisk) :
    Copied crc64 (bs ++ [b]) (Bytes.pwrite (bmapOff bs.length) (block crc64 BmapOndisk.layout b) f) where
  bmap := by
    refine forall_getElem?_snoc (fun n b' hn => ?_) (pread_pwrite_self f (length_block crc64 _ _))
    have hlt : n < bs.length := (List.getElem?_eq_some_iff.mp hn).1
    have hlen := h.length
    rw [if_neg (List.ne_nil_of_length_pos (by omega))] at hlen
    have hle : bmapOff n + bmapOdSz ≤ bmapOff bs.length := by
      simp only [bmapOff_eq, bmapOdSz_eq]
      omega
    rw [pread_pwrite_before_of_le hle (by omega), h.bmap n b' hn]
  length := by
    have hle : f.length ≤ bmapOff bs.length := by
      rw [h.length]
      split <;> omega
    rw [length_pwrite, length_block, if_neg (by simp), List.length_append]
    change max f.length (bmapOff bs.length + bmapOdSz) = bmapOff (bs.length + 1)
    simp only [bmapOff_eq, bmapOdSz_eq] at hle ⊢
    omega
  headless := h.headless.pwrite _ (by simp only [bmapOff_eq, inoSize]; omega)

/-- A whole file: its inode, its extension and the bmaps `bs`. -/
structure Stored (crc64 : List Byte → BitVec 64) (ino : InoOd) (x : InoxOd) (bs : List BmapOndisk)
    (f : List Byte) : Prop where
  ino : pread 0 (InoOd.layout.size + 8) f = block crc64 InoOd.layout ino
  inox : pread slExtrasStartOff (InoxOd.layout.size + 8) f = block crc64 InoxOd.layout x
  bmap : ∀ n b, bs[n]? = some b → pread (bmapOff n) bmapOdSz f = block crc64 BmapOndisk.layout b
  length : f.length ≤ bmapOff bs.length

def finish (crc64 : List Byte → BitVec 64) (ino : InoOd) (x : InoxOd) (f : List Byte) : List Byte :=
  Bytes.pwrite 0 (block crc64 InoOd.layout ino) (Bytes.pwrite slExtrasStartOff (block crc64 InoxOd.layout x) f)

theorem Copied.stored (h : Copied crc64 bs f) (ino : InoOd) (x : InoxOd) :
    Stored crc64 ino x bs (finish crc64 ino x f) where
  ino := pread_pwrite_self _ (length_block crc64 _ _)
  inox := by
    have hle : 0 + (block crc64 InoOd.layout ino).length ≤ slExtrasStartOff := by
      rw [length_block, inoSize, slExtrasStartOff]
      omega
    rw [finish, pread_pwrite_after hle, pread_pwrite_self _ (length_block crc64 _ _)]
  bmap n b hn := by
    have hino : 0 + (block crc64 InoOd.layout ino).length ≤ bmapOff n := by
      rw [length_block, inoSize, bmapOff_eq]
      omega
    have hinox : slExtrasStartOff + (block crc64 InoxOd.layout x).length ≤ bmapOff n := by
      rw [length_block, inoxSize, bmapOff_eq, slExtrasStartOff]
      omega
    rw [finish, pread_pwrite_after hino, pread_pwrite_after hinox, h.bmap n b hn]
  length := by
    have hle : f.length ≤ bmapOff bs.length := by
      rw [h.length]
      split <;> omega
    rw [finish, length_pwrite, length_pwrite, length_block, length_block, inoSize, inoxSize, slExtrasStartOff]
    rw [bmapOff_eq] at hle ⊢
    omega

theorem Stored.read {ino : InoOd} (h : Stored crc64 ino x bs f) {env : Env}
    (henv : env.fault .inodeRead = .none) (t : Option (List Byte)) :
    mdsInodeRead crc64 env ⟨f, t⟩ = .done ⟨ino, none⟩ ⟨f, t⟩ := by
  have hr := preadv_block crc64 0 h.ino
  have hcall : mdsio env .inodeRead (Prog.look fun d => .ok (preadv InoOd.layout.size 0 0 d.orig)) ⟨f, t⟩ =
      .done ⟨InoOd.layout.put ino, crc64 (InoOd.layout.put ino), InoOd.layout.size + 8⟩ ⟨f, t⟩ := by
    rw [mdsio, henv, ← hr]
    rfl
  change Prog.andThen _ _ _ = _
  rw [Prog.andThen, hcall]
  simp only [ne_eq, not_true_eq_false, false_and, if_false, Layout.get_put]
  rfl

/-! ### What is kept of a file of version 1 -/

/-- `f` reads as `F` does for version 1. -/
structure Same (crc64 : List Byte → BitVec 64) (F f : List Byte) : Prop where
  ino : ∃ v i, inoV1 crc64 F = .ok v ∧
    (∀ env t, env.fault .inodeRead = .none → mdsInodeRead crc64 env ⟨f, t⟩ = .done ⟨i, none⟩ ⟨f, t⟩) ∧
    i.flags = v.flags ∧ i.bsz = v.bsz ∧ i.nrepls = v.nrepls ∧ i.replpol = v.replpol ∧ i.repls = v.repls ∧
    ∀ n, (∀ b, mdsBmapReadV1 crc64 n F = .ok b → mdsBmapRead crc64 false i n f = some (.ok b)) ∧
      (MissingV1 n F → mdsBmapRead crc64 false i n f = some (.ok (mdsBmapInitnew v.replpol)))
  inox : ∃ g y x, mdsInoxReadV1 crc64 g F = .ok y ∧ (∀ g', mdsInoxLoadLocked crc64 g' f = .ok x) ∧
    x.repls = y.repls

/-- The first bmaps are `bs`, and pass the check. -/
def RecordsV1 (crc64 : List Byte → BitVec 64) (F : List Byte) (v : InoV1) (bs : List BmapOndisk) : Prop :=
  ∀ n b, bs[n]? = some b → mdsBmapReadV1 crc64 n F = .ok b ∧ ensureValid v.nrepls b.repls

/-- What version 1 reads: `bs` are its bmaps, without a gap. -/
structure ContentV1 (crc64 : List Byte → BitVec 64) (F : List Byte) (v : InoV1) (x : InoxOd)
    (bs : List BmapOndisk) : Prop where
  ino : inoV1 crc64 F = .ok v
  inox : ∃ g, mdsInoxReadV1 crc64 g F = .ok x
  bmap : RecordsV1 crc64 F v bs
  length : F.length ≤ bmapOffV1 bs.length

theorem ContentV1.getElem?_of_read (h : ContentV1 crc64 F v x bs) {n : ℕ} {b : BmapOndisk}
    (hn : mdsBmapReadV1 crc64 n F = .ok b) : bs[n]? = some b := by
  rcases Nat.lt_or_ge n bs.length with hlt | hge
  · have hget := List.getElem?_eq_getElem hlt
    rw [hget]
    have := (h.bmap n _ hget).1
    rw [hn] at this
    cases this
    rfl
  have hlen := h.length
  rw [mdsBmapReadV1_of_end crc64 (by simp only [bmapOffV1_eq] at hlen ⊢; omega)] at hn
  cases hn

theorem ContentV1.length_le_of_missing (h : ContentV1 crc64 F v x bs) {n : ℕ} (hn : MissingV1 n F) : bs.length ≤ n := by
  by_contra hlt
  obtain ⟨hb, hv⟩ := h.bmap n _ (List.getElem?_eq_getElem (Nat.not_le.mp hlt))
  rw [not_ensureValid_of_missing crc64 hn hb] at hv
  exact Bool.false_ne_true hv

theorem ContentV1.same (h : ContentV1 crc64 F v x bs) (hflags : v.flags = 0)
    (hf : Stored crc64 v.convert x bs f) : Same crc64 F f where
  ino := by
    refine ⟨v, v.convert, h.ino, fun env t henv => hf.read henv t, hflags.symm, rfl, rfl, rfl, rfl,
      fun n => ⟨fun b hb => ?_, fun hm => ?_⟩⟩
    · have hget := h.getElem?_of_read hb
      exact mdsBmapRead_of_block crc64 (h.bmap n b hget).2 (hf.bmap n b hget)
    · have hle := h.length_le_of_missing hm
      have hlen := hf.length
      exact mdsBmapRead_of_end crc64 false (by simp only [bmapOff_eq] at hlen ⊢; omega)
  inox := by
    obtain ⟨g, hg⟩ := h.inox
    exact ⟨g, x, x, hg, fun g' => mdsInoxLoadLocked_of_block crc64 g' hf.inox, rfl⟩

end Files

/-! ### The pass to the temporary file -/

section Passes

variable {crc64 : List Byte → BitVec 64} {env : Env} {E : Rc → Disk → Prop} {C : Disk → Prop}

theorem ends_mdsio {α : Type} {p : Io α} {Q : α → Disk → Prop} (hnone : env.fault c = .none → Ends p d Q E C)
    (herr : ∀ e, env.fault c = .err e → E (.errno e) d) (hcrash : env.fault c = .crash → C d) :
    Ends (mdsio env c p) d Q E C := by
  unfold Ends mdsio
  cases hc : env.fault c with
  | none => exact hnone hc
  | err e => exact herr e hc
  | crash => exact hcrash hc

structure Fair (crc64 : List Byte → BitVec 64) (env : Env) (F : List Byte) : Prop where
  calls : ∀ c, env.fault c = .none
  bmap : ∀ v, inoV1 crc64 F = .ok v → ∀ n,
    (∃ b, mdsBmapReadV1 crc64 n F = .ok b ∧ ensureValid v.nrepls b.repls) ∨ F.length ≤ bmapOffV1 n
  ino : ∃ v, inoV1 crc64 F = .ok v
  inox : ∃ x, mdsInoxReadV1 crc64 env.gInoxV1 F = .ok x

theorem not_fair_of_err {e : ℕ} (h : env.fault c = .err e) : ¬ Fair crc64 env F := fun hf => by simp [hf.calls c] at h

theorem not_fair_of_crash (h : env.fault c = .crash) : ¬ Fair crc64 env F := fun hf => by simp [hf.calls c] at h

structure Begun (crc64 : List Byte → BitVec 64) (env : Env) (F : List Byte) (d : Disk) : Prop where
  unfair : ¬ Fair crc64 env F
  orig : d.orig = F
  tmp : ∃ f, d.tmp = some f ∧ Headless f

theorem dumpLoop_tmp (hv : inoV1 crc64 F = .ok v) : ∀ (fuel : ℕ) {bs : List BmapOndisk} {f : List Byte},
    RecordsV1 crc64 F v bs → Copied crc64 bs f → F.length ≤ bmapOffV1 (bs.length + fuel) →
    Ends (dumpLoop crc64 env true .tmp .orig v.convert fuel bs.length) ⟨F, some f⟩
      (fun _ d => ∃ bs' f', d = ⟨F, some f'⟩ ∧ RecordsV1 crc64 F v bs' ∧ Copied crc64 bs' f' ∧
        F.length ≤ bmapOffV1 bs'.length) (fun _ => Begun crc64 env F) (Begun crc64 env F)
  | 0, bs, f, hbs, hf, hlen => ends_pure ⟨bs, f, rfl, hbs, hf, hlen⟩
  | fuel + 1, bs, f, hbs, hf, hlen => by
    have begun : ¬ Fair crc64 env F → Begun crc64 env F ⟨F, some f⟩ := fun hn => ⟨hn, rfl, f, rfl, hf.headless⟩
    refine Ends.bind (Q := fun r d => d = ⟨F, some f⟩ ∧
      (mdsBmapReadV1 crc64 bs.length F = r ∨ ¬ Fair crc64 env F ∧ ∃ e, r = .error (.errno e)))
      (Ends.attempt (ends_mdsio (fun _ => ?_) (fun e he => ?_) fun hc => ?_)) fun r d hr => ?_
    · exact ends_look (fun b hb => ⟨rfl, .inl hb⟩) fun e he => ⟨rfl, .inl he⟩
    · exact ⟨rfl, .inr ⟨not_fair_of_err he, e, rfl⟩⟩
    · exact begun (not_fair_of_crash hc)
    · obtain ⟨rfl, hr⟩ := hr
      rcases hr with rfl | ⟨hn, e, rfl⟩
      · cases hread : mdsBmapReadV1 crc64 bs.length F with
        | ok b =>
          change Ends ((mdsBmapWrite crc64 env .tmp v.convert bs.length b).andThen fun _ => _) _ _ _ _
          unfold mdsBmapWrite
          split
          · rename_i hvalid
            refine Ends.bind (Q := fun _ d => d = ⟨F, some (pwrite (bmapOff bs.length)
              (block crc64 BmapOndisk.layout b) f)⟩) (ends_mdsio (fun _ => ends_update rfl)
                (fun e he => begun (not_fair_of_err he)) fun hc => begun (not_fair_of_crash hc)) fun _ d hd => ?_
            subst hd
            have hbs' : RecordsV1 crc64 F v (bs ++ [b]) := forall_getElem?_snoc hbs ⟨hread, hvalid⟩
            have hfuel : F.length ≤ bmapOffV1 ((bs ++ [b]).length + fuel) := by
              rw [List.length_append, List.length_singleton, Nat.add_assoc, Nat.add_comm 1]
              exact hlen
            have := dumpLoop_tmp hv fuel hbs' (hf.snoc b) hfuel
            rwa [List.length_append, List.length_singleton] at this
          · rename_i hvalid
            refine Ends.bind (Q := fun _ _ => False) (ends_halt (begun fun hfair => ?_)) fun _ _ hF => hF.elim
            -- the check fails for a bmap that can be read
            rcases hfair.bmap v hv bs.length with ⟨b', hb', hv'⟩ | hle
            · rw [hread] at hb'
              cases hb'
              exact hvalid hv'
            · rw [mdsBmapReadV1_of_end crc64 hle] at hread
              cases hread
        | error rc =>
          have hunfair : rc ≠ .bmapInvalid → ¬ Fair crc64 env F := by
            intro hne hfair
            rcases hfair.bmap v hv bs.length with ⟨b', hb', -⟩ | hle
            · rw [hread] at hb'
              cases hb'
            rw [mdsBmapReadV1_of_end crc64 hle] at hread
            cases hread
            exact hne rfl
          cases rc with
          | bmapInvalid => exact ends_pure ⟨bs, f, rfl, hbs, hf, length_le_of_bmapInvalid crc64 hread⟩
          | shortio => exact ends_error (begun (hunfair (by simp)))
          | badcrc => exact ends_error (begun (hunfair (by simp)))
          | errno e => exact ends_error (begun (hunfair (by simp)))
      · exact ends_error (begun hn)

theorem mdsInodeDump_tmp (hv : inoV1 crc64 F = .ok v) (x : InoxOd) :
    Ends (mdsInodeDump crc64 env true .tmp .orig v.convert x) ⟨F, some []⟩
      (fun _ d => ∃ bs f, d = ⟨F, some f⟩ ∧ RecordsV1 crc64 F v bs ∧ F.length ≤ bmapOffV1 bs.length ∧
        Stored crc64 v.convert x bs f) (fun _ => Begun crc64 env F) (Begun crc64 env F) := by
  have hfuel : F.length ≤ bmapOffV1 ((([] : List BmapOndisk)).length + (F.length + 1)) := by
    rw [bmapOffV1_eq]
    omega
  have hnone : RecordsV1 crc64 F v [] := by simp [RecordsV1]
  refine Ends.bind (dumpLoop_tmp hv (F.length + 1) hnone (Copied.nil crc64) hfuel) fun _ d hd => ?_
  obtain ⟨bs, f, rfl, hbs, hf, hlen⟩ := hd
  refine Ends.bind (Q := fun _ d => d = ⟨F, some (pwrite slExtrasStartOff (block crc64 InoxOd.layout x) f)⟩)
    (ends_mdsio (fun _ => ends_update rfl) (fun e he => ⟨not_fair_of_err he, rfl, f, rfl, hf.headless⟩)
      fun hc => ⟨not_fair_of_crash hc, rfl, f, rfl, hf.headless⟩) fun _ d hd => ?_
  subst hd
  have hhead : Headless (pwrite slExtrasStartOff (block crc64 InoxOd.layout x) f) :=
    hf.headless.pwrite _ (by rw [inoSize, slExtrasStartOff]; omega)
  exact ends_mdsio (fun _ => ends_update ⟨bs, _, rfl, hbs, hlen, hf.stored v.convert x⟩)
    (fun e he => ⟨not_fair_of_err he, rfl, _, rfl, hhead⟩)
    fun hc => ⟨not_fair_of_crash hc, rfl, _, rfl, hhead⟩

/-! ### The pass to the metadata file -/

theorem mdsInodeDump_orig (ino : InoOd) (x : InoxOd) (t : Option (List Byte)) :
    Ends (mdsInodeDump crc64 env false .orig .tmp ino x) ⟨[], t⟩
      (fun _ d => env.fault (.dump .orig .inodeWrite) = .none ∧ d = ⟨finish crc64 ino x [], t⟩)
      (fun _ d => (∃ c e, env.fault (.dump .orig c) = .err e) ∧ Headless d.orig ∧ d.tmp = t)
      (fun d => (∃ c, env.fault (.dump .orig c) = .crash) ∧ Headless d.orig ∧ d.tmp = t) := by
  have hempty : Headless ([] : List Byte) := .inl rfl
  refine Ends.bind (Q := fun _ d => d = ⟨[], t⟩) ?_ fun _ d hd => ?_
  · refine Ends.bind (Q := fun r d => d = ⟨[], t⟩ ∧ (r = .error .bmapInvalid ∨
      ∃ e, env.fault (.dump .orig (.bmapRead 0)) = .err e ∧ r = .error (.errno e)))
      (Ends.attempt (ends_mdsio (fun _ => ?_) (fun e he => ⟨rfl, .inr ⟨e, he, rfl⟩⟩)
        fun hc => ⟨⟨_, hc⟩, hempty, rfl⟩)) fun r d hr => ?_
    · unfold Ends readCurrent
      exact ⟨rfl, .inl rfl⟩
    · obtain ⟨rfl, rfl | ⟨e, he, rfl⟩⟩ := hr
      · exact ends_pure rfl
      · exact ends_error ⟨⟨_, e, he⟩, hempty, rfl⟩
  subst hd
  refine Ends.bind (Q := fun _ d => d = ⟨pwrite slExtrasStartOff (block crc64 InoxOd.layout x) [], t⟩)
    (ends_mdsio (fun _ => ends_update rfl) (fun e he => ⟨⟨_, e, he⟩, hempty, rfl⟩)
      fun hc => ⟨⟨_, hc⟩, hempty, rfl⟩) fun _ d hd => ?_
  subst hd
  have hhead : Headless (pwrite slExtrasStartOff (block crc64 InoxOd.layout x) []) :=
    hempty.pwrite _ (by rw [inoSize, slExtrasStartOff]; omega)
  exact ends_mdsio (fun hn => ends_update ⟨hn, rfl⟩) (fun e he => ⟨⟨_, e, he⟩, hhead, rfl⟩)
    fun hc => ⟨⟨_, hc⟩, hhead, rfl⟩

/-- A whole copy of `F`, but for the flags. -/
def CopyV1 (crc64 : List Byte → BitVec 64) (F f : List Byte) : Prop :=
  ∃ v x bs, ContentV1 crc64 F v x bs ∧ Stored crc64 v.convert x bs f

/-- The file stays; the temporary one is `t`, gone, without inode, or a copy. -/
structure Kept (crc64 : List Byte → BitVec 64) (F : List Byte) (t : Option (List Byte)) (d : Disk) : Prop where
  orig : d.orig = F
  tmp : d.tmp = t ∨ ∀ f ∈ d.tmp, Headless f ∨ CopyV1 crc64 F f

structure Moving (crc64 : List Byte → BitVec 64) (F : List Byte) (d : Disk) : Prop where
  orig : Headless d.orig
  tmp : ∃ f, d.tmp = some f ∧ CopyV1 crc64 F f

/-- The file has the content `v`, `x`. -/
structure Moved (crc64 : List Byte → BitVec 64) (F : List Byte) (v : InoV1) (x : InoxOd) (d : Disk) : Prop where
  orig : d.orig = finish crc64 v.convert x []
  tmp : ∀ f ∈ d.tmp, CopyV1 crc64 F f

theorem mdsInoReadV1_eq_ok {ino : InoOd} (h : mdsInoReadV1 crc64 F = .ok ino) :
    ∃ v, inoV1 crc64 F = .ok v ∧ ino = v.convert := by
  unfold mdsInoReadV1 at h
  cases hv : inoV1 crc64 F with
  | ok v =>
    rw [hv] at h
    cases h
    exact ⟨v, rfl, rfl⟩
  | error =>
    rw [hv] at h
    cases h

theorem ends_unlink {r : Routine} {Q : Unit → Disk → Prop} (hnone : Q () { d with tmp := none }) (herr : Q () d)
    (hcrash : env.fault (.unlink r) = .crash → C d) : Ends (unlink env r) d Q E C := by
  refine Ends.bind (Ends.attempt (ends_mdsio (fun _ => ends_update hnone) (fun _ _ => herr)
    hcrash)) fun _ _ h => ends_pure h

def Left (crc64 : List Byte → BitVec 64) (env : Env) (F : List Byte) (t : Option (List Byte)) (d : Disk) : Prop :=
  ¬ Fair crc64 env F ∧ (Kept crc64 F t d ∨ Moving crc64 F d ∨
    env.fault (.dump .orig .inodeWrite) = .none ∧ ∃ v x bs, ContentV1 crc64 F v x bs ∧ Moved crc64 F v x d)

def Converted (crc64 : List Byte → BitVec 64) (env : Env) (F : List Byte) (ih : Inoh) (d : Disk) : Prop :=
  env.fault (.dump .orig .inodeWrite) = .none ∧
    ∃ v x bs, ContentV1 crc64 F v x bs ∧ ih = ⟨v.convert, some x⟩ ∧ Moved crc64 F v x d

theorem updateFrom_spec (hno : ∀ c e, env.fault (.dump .orig c) ≠ .err e)
    (hv : inoV1 crc64 F = .ok v) (t : Option (List Byte)) :
    Ends (updateFrom crc64 env v.convert) ⟨F, t⟩ (Converted crc64 env F)
      (fun _ d => ¬ Fair crc64 env F ∧ Kept crc64 F t d) (Left crc64 env F t) := by
  have hkept : Kept crc64 F t ⟨F, t⟩ := ⟨rfl, .inl rfl⟩
  -- the temporary file is created
  refine Ends.bind (Q := fun _ d => d = ⟨F, some []⟩) (ends_mdsio (fun _ => ends_update rfl)
    (fun e he => ⟨not_fair_of_err he, hkept⟩) fun hc => ⟨not_fair_of_crash hc, .inl hkept⟩) fun _ d hd => ?_
  subst hd
  have hnew : Kept crc64 F t ⟨F, some []⟩ := ⟨rfl, .inr (by rintro f ⟨⟩; exact .inl (.inl rfl))⟩
  -- the extension of version 1
  refine Ends.bind (Q := fun x d => d = ⟨F, some []⟩ ∧ mdsInoxReadV1 crc64 env.gInoxV1 F = .ok x)
    (ends_mdsio (fun _ => ends_look (fun x hx => ⟨rfl, hx⟩) fun e he => ⟨fun hf => ?_, hnew⟩)
      (fun e he => ⟨not_fair_of_err he, hnew⟩) fun hc => ⟨not_fair_of_crash hc, .inl hnew⟩) fun x d hd => ?_
  · obtain ⟨x, hx⟩ := hf.inox
    cases hx.symm.trans he
  obtain ⟨rfl, hx⟩ := hd
  -- the first pass
  have begun : ∀ d, Begun crc64 env F d → ¬ Fair crc64 env F ∧ Kept crc64 F t d := by
    intro d hd
    obtain ⟨f, hf, hh⟩ := hd.tmp
    refine ⟨hd.unfair, hd.orig, .inr fun f' hf' => ?_⟩
    obtain rfl : f = f' := Option.some.inj (hf.symm.trans hf')
    exact .inl hh
  refine Ends.bind ((mdsInodeDump_tmp hv x).mono (fun _ _ h => h) (fun _ d h => begun d h)
    fun d h => ⟨(begun d h).1, .inl (begun d h).2⟩) fun _ d hd => ?_
  obtain ⟨bs, f, rfl, hbs, hlen, hf⟩ := hd
  have hcontent : ContentV1 crc64 F v x bs := ⟨hv, ⟨_, hx⟩, hbs, hlen⟩
  have hcopy : CopyV1 crc64 F f := ⟨v, x, bs, hcontent, hf⟩
  have hmem : ∀ f' ∈ some f, CopyV1 crc64 F f' := by
    rintro f' ⟨⟩
    exact hcopy
  have hdone : Kept crc64 F t ⟨F, some f⟩ := ⟨rfl, .inr fun f' hf' => .inr (hmem f' hf')⟩
  -- the metadata file is emptied and written again
  refine Ends.bind (Q := fun _ d => d = ⟨[], some f⟩) (ends_mdsio (fun _ => ends_update rfl)
    (fun e he => ⟨not_fair_of_err he, hdone⟩) fun hc => ⟨not_fair_of_crash hc, .inl hdone⟩) fun _ d hd => ?_
  subst hd
  refine Ends.bind ((mdsInodeDump_orig v.convert x (some f)).mono (fun _ _ h => h)
    (fun _ d h => ?_) fun d h => ?_) fun _ d hd => ?_
  · obtain ⟨⟨c, e, he⟩, -⟩ := h
    exact absurd he (hno c e)
  · obtain ⟨⟨c, hc⟩, hh, ht⟩ := h
    exact ⟨not_fair_of_crash hc, .inr (.inl ⟨hh, f, ht, hcopy⟩)⟩
  obtain ⟨hw, rfl⟩ := hd
  have hmoved : Moved crc64 F v x ⟨finish crc64 v.convert x [], some f⟩ := ⟨rfl, hmem⟩
  refine Ends.bind (Q := fun _ => Moved crc64 F v x) (ends_unlink ⟨rfl, by simp⟩ hmoved
    fun hc => ⟨not_fair_of_crash hc, .inr (.inr ⟨hw, v, x, bs, hcontent, hmoved⟩)⟩) fun _ d hd => ?_
  exact ends_pure ⟨hw, v, x, bs, hcontent, rfl, hd⟩

theorem mdsInodeUpdate_spec (hno : ∀ c e, env.fault (.dump .orig c) ≠ .err e) (F : List Byte) (t : Option (List Byte)) :
    Ends (mdsInodeUpdate crc64 env) ⟨F, t⟩ (Converted crc64 env F)
      (fun _ d => ¬ Fair crc64 env F ∧ Kept crc64 F t d) (Left crc64 env F t) := by
  have hkept : Kept crc64 F t ⟨F, t⟩ := ⟨rfl, .inl rfl⟩
  refine Ends.bind (Q := fun ino d => d = ⟨F, t⟩ ∧ ∃ v, inoV1 crc64 F = .ok v ∧ ino = v.convert)
    (ends_mdsio (fun _ => ends_look (fun ino hino => ?_) fun e he => ⟨fun hf => ?_, hkept⟩)
      (fun e he => ⟨not_fair_of_err he, hkept⟩) fun hc => ⟨not_fair_of_crash hc, .inl hkept⟩) fun ino d hd => ?_
  · obtain ⟨v, hv, rfl⟩ := mdsInoReadV1_eq_ok hino
    exact ⟨rfl, v, hv, rfl⟩
  · obtain ⟨v, hv⟩ := hf.ino
    have he' : (inoV1 crc64 F).map InoV1.convert = .error e := he
    rw [hv] at he'
    cases he'
  obtain ⟨rfl, v, hv, rfl⟩ := hd
  refine Ends.onFail (updateFrom_spec hno hv t) fun e d hd => ?_
  -- the error path removes the temporary file
  obtain ⟨hn, hk⟩ := hd
  exact ends_unlink ⟨hn, hk.orig, .inr (by simp)⟩ ⟨hn, hk⟩ fun _ => ⟨hn, .inl hk⟩

theorem mdsInodeUpdate_fair (hfair : Fair crc64 env F) (t : Option (List Byte)) :
    ∃ ih d, mdsInodeUpdate crc64 env ⟨F, t⟩ = .done ih d ∧ Converted crc64 env F ih d := by
  have hno : ∀ c e, env.fault (.dump .orig c) ≠ .err e := by simp [hfair.calls]
  exact ((mdsInodeUpdate_spec hno F t).mono (fun _ _ h => h) (fun _ _ h => h.1 hfair) fun _ h => h.1 hfair).exists_done

theorem Moved.stored (h : Moved crc64 F v x d) : Stored crc64 v.convert x [] d.orig := by
  rw [h.orig]
  exact (Copied.nil crc64).stored v.convert x

/-- **A conversion keeps the content** if there are no flags and no bmaps. -/
theorem update_keeps_iff (hcalls : ∀ c, env.fault c = .none) {F : List Byte} {v : InoV1} {y : InoxOd}
    (hv : inoV1 crc64 F = .ok v) (hy : mdsInoxReadV1 crc64 env.gInoxV1 F = .ok y) (t : Option (List Byte)) :
    (∃ ih d, mdsInodeUpdate crc64 env ⟨F, t⟩ = .done ih d ∧ Same crc64 F d.orig) ↔
      v.flags = 0 ∧ F.length ≤ bmapOffV1 0 := by
  constructor
  · rintro ⟨ih, d, hd, hsame⟩
    have hno : ∀ c e, env.fault (.dump .orig c) ≠ .err e := by simp [hcalls]
    obtain ⟨-, v', x, bs, hcontent, -, hmoved⟩ := (mdsInodeUpdate_spec hno F t).of_done hd
    obtain rfl : v = v' := Except.ok.inj (hv.symm.trans hcontent.ino)
    have hstored := hmoved.stored
    obtain ⟨v', i, hv', hread, hflags, -, -, -, -, hbmap⟩ := hsame.ino
    obtain rfl : v = v' := Except.ok.inj (hv.symm.trans hv')
    have hi := (hread env t (hcalls _)).symm.trans (hstored.read (hcalls _) t)
    cases hi
    refine ⟨hflags.symm, ?_⟩
    cases bs with
    | nil => exact hcontent.length
    | cons b =>
      -- the first bmap would be read back as a new one, but a new one has no valid replica
      obtain ⟨hb, hvalid⟩ := hcontent.bmap 0 b rfl
      have hnew := ((hbmap 0).1 b hb).symm.trans (mdsBmapRead_of_end crc64 false hstored.length)
      cases hnew
      cases (ensureValid_replicate v.nrepls).symm.trans hvalid
  · rintro ⟨hflags, hlen⟩
    have hend : ∀ n, F.length ≤ bmapOffV1 n := fun n => hlen.trans (by simp only [bmapOffV1_eq]; omega)
    have hfair : Fair crc64 env F := ⟨hcalls, fun _ _ n => .inr (hend n), ⟨v, hv⟩, y, hy⟩
    obtain ⟨ih, d, hd, -, v', x, bs, hcontent, -, hmoved⟩ := mdsInodeUpdate_fair hfair t
    obtain rfl : v = v' := Except.ok.inj (hv.symm.trans hcontent.ino)
    refine ⟨ih, d, hd, ?_⟩
    cases bs with
    | nil => exact hcontent.same hflags hmoved.stored
    | cons b =>
      have hb := (hcontent.bmap 0 b rfl).1
      rw [mdsBmapReadV1_of_end crc64 (hend 0)] at hb
      cases hb

end Passes

/-! ### A file with a flag and a bmap -/

def crcOne : List Byte → BitVec 64 := fun _ => 1

def calm : Env := ⟨fun _ => .none, 0, 0, 0⟩

/-- A file of version 1 with one replica, and with the flags `fl`. -/
def oldIno (fl : BitVec 16) : InoV1 := ⟨1, fl, slashBmapSize, 1, 0, #v[7, 0, 0, 0]⟩

theorem update_keeps_plain : ∃ ih d,
    mdsInodeUpdate crcOne calm ⟨block crcOne InoV1.layout (oldIno 0), none⟩ = .done ih d ∧
      Same crcOne (block crcOne InoV1.layout (oldIno 0)) d.orig :=
  (update_keeps_iff (fun _ => rfl) (v := oldIno 0) (y := InoxOd.zero) (by decide +kernel)
    (by decide +kernel) none).mpr ⟨rfl, by decide +kernel⟩

def oldBmap : BmapOndisk := { mdsBmapInitnew 0 with repls := setState (Vector.replicate _ 0) 0 .valid }

/-- A file with the flag `INOF_IOS_AFFINITY` and one bmap. -/
def oldFile (crc64 : List Byte → BitVec 64) : List Byte :=
  pwrite (bmapOffV1 0) (block crc64 BmapOndisk.layout oldBmap) (pwrite 0 (block crc64 InoV1.layout (oldIno 1)) [])

theorem oldFile_lost (crc64 : List Byte → BitVec 64) :
    inoV1 crc64 (oldFile crc64) = .ok (oldIno 1) ∧ mdsBmapReadV1 crc64 0 (oldFile crc64) = .ok oldBmap ∧
      ∃ ih d i, mdsInodeUpdate crc64 calm ⟨oldFile crc64, none⟩ = .done ih d ∧
        mdsInodeRead crc64 calm d = .done ⟨i, none⟩ d ∧ i.flags = 0 ∧
        mdsBmapRead crc64 false i 0 d.orig = some (.ok (mdsBmapInitnew 0)) := by
  have hino : (block crc64 InoV1.layout (oldIno 1)).length = 40 := length_block crc64 _ _
  have hlen1 : (pwrite 0 (block crc64 InoV1.layout (oldIno 1)) []).length = 40 := by
    rw [length_pwrite, hino]
    rfl
  have hv : inoV1 crc64 (oldFile crc64) = .ok (oldIno 1) := by
    refine inoV1_of_block crc64 ?_
    rw [oldFile, pread_pwrite_before_of_le (by decide) (by rw [hlen1]; decide),
      pread_pwrite_self _ (length_block crc64 _ _)]
  have hb : mdsBmapReadV1 crc64 0 (oldFile crc64) = .ok oldBmap :=
    mdsBmapReadV1_of_block crc64 (pread_pwrite_self _ (length_block crc64 _ _))
  have hx : mdsInoxReadV1 crc64 calm.gInoxV1 (oldFile crc64) = .ok InoxOd.zero :=
    mdsInoxReadV1_of_zeros crc64 _ (pread_pwrite_gap (by rw [hlen1]; decide) (by decide))
  have hlen : (oldFile crc64).length = bmapOffV1 1 := by
    rw [oldFile, length_pwrite, hlen1, length_block]
    decide
  have hfair : Fair crc64 calm (oldFile crc64) := by
    refine ⟨fun _ => rfl, fun v hv' n => ?_, ⟨_, hv⟩, _, hx⟩
    obtain rfl : oldIno 1 = v := Except.ok.inj (hv.symm.trans hv')
    cases n with
    | zero => exact .inl ⟨_, hb, by decide +kernel⟩
    | succ n =>
      right
      simp only [hlen, bmapOffV1_eq]
      omega
  obtain ⟨ih, d, hd, -, v, x, bs, hcontent, -, hmoved⟩ := mdsInodeUpdate_fair hfair none
  obtain rfl : oldIno 1 = v := Except.ok.inj (hv.symm.trans hcontent.ino)
  exact ⟨hv, hb, ih, d, (oldIno 1).convert, hd, hmoved.stored.read rfl d.tmp, rfl,
    mdsBmapRead_of_end crc64 false hmoved.stored.length⟩

/-- **The flag and the bmap are lost.** -/
theorem flag_and_bmap_lost :
    inoV1 crcOne (oldFile crcOne) = .ok (oldIno 1) ∧ mdsBmapReadV1 crcOne 0 (oldFile crcOne) = .ok oldBmap ∧
      ∃ ih d i, mdsInodeUpdate crcOne calm ⟨oldFile crcOne, none⟩ = .done ih d ∧
        mdsInodeRead crcOne calm d = .done ⟨i, none⟩ d ∧ i.flags = 0 ∧
        mdsBmapRead crcOne false i 0 d.orig = some (.ok (mdsBmapInitnew 0)) :=
  oldFile_lost crcOne

end Slash2.Metafile

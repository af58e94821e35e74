/-
# Conversions that are cut off

The MDS may go down in the middle of a conversion, and a call of the file system below may
fail. `mds_inode_read` then finds a metadata file it cannot read, looks for the temporary
file and, if that has an inode, copies it back (`mds_inode_update_interrupted`).

Key theorem: `migration_safe`.
-/
import Slash2.Lib.Run
import Slash2.Metafile.Keep

namespace Slash2.Metafile

open Lib Lib.Bytes Residency Option

variable (crc64 : List Byte → BitVec 64)

/-! ### Attempts -/

/-- One `mds_inode_read`, unless the MDS is down. -/
def step (d : Disk) (env : Env) : Option Disk := some (mdsInodeRead crc64 env d).state

/-- An inode of version 1. -/
structure OldInode (F : List Byte) : Prop where
  crc : crc64 (preadv InoOd.layout.size 0 0 F).buf ≠ (preadv InoOd.layout.size 0 0 F).odCrc
  version : (InoOd.layout.get (preadv InoOd.layout.size 0 0 F).buf).version = 1

/-- Without bmaps and without replicas in the extras. -/
structure Plain (F : List Byte) : Prop where
  bmap : F.length ≤ bmapOffV1 0
  inox : ∀ g x, mdsInoxReadV1 crc64 g F = .ok x → x.repls = Vector.replicate _ 0

/-- The content of `F` is in the metadata file, or in the copy. -/
def Safe (F : List Byte) (d : Disk) : Prop :=
  d.orig = F ∨ Same crc64 F d.orig ∨ ∃ f, d.tmp = some f ∧ Same crc64 F f

/-- What is read is on disk, and is the content of `F`. -/
structure Returned (F : List Byte) (ih : Inoh) (d : Disk) : Prop where
  same : Same crc64 F d.orig
  ino : ∀ env t, env.fault .inodeRead = .none →
    mdsInodeRead crc64 env ⟨d.orig, t⟩ = .done ⟨ih.ino, none⟩ ⟨d.orig, t⟩
  extras : ∀ x ∈ ih.extras, ∀ g, mdsInoxLoadLocked crc64 g d.orig = .ok x

/-- No error in a dump to the file itself, nor before it once the file has been emptied; no CRC that is right by
chance; and a file that is `Plain`, or a crash before its inode is written. -/
structure Cond (F : List Byte) (d : Disk) (env : Env) : Prop where
  garbage : env.gTmp ≠ crc64 (List.replicate InoOd.layout.size 0)
  pass : ∀ c e, env.fault (.dump .orig c) ≠ .err e
  emptied : d.orig ≠ F → ∀ c ∈ [Call.lookup, .openTmp, .tmpRead, .trunc], ∀ e, env.fault c ≠ .err e
  plain : Plain crc64 F ∨ env.fault (.dump .orig .inodeWrite) = .crash

variable {crc64}

theorem version_get_replicate : (InoOd.layout.get (List.replicate InoOd.layout.size 0)).version = 0 := by
  decide +kernel

variable {f : List Byte}

theorem Headless.preadv (h : Headless f) (g : BitVec 64) :
    preadv InoOd.layout.size g 0 f = ⟨List.replicate InoOd.layout.size 0, g, 0⟩ ∨
      preadv InoOd.layout.size g 0 f = ⟨List.replicate InoOd.layout.size 0, 0, InoOd.layout.size + 8⟩ := by
  rcases h with rfl | h
  · exact .inl (preadv_end g (Nat.le_refl 0))
  have hput : (Layout.word 8).put 0 = List.replicate 8 0 := by decide
  rw [List.replicate_add, ← hput] at h
  exact .inr (preadv_full g List.length_replicate h)

variable {F : List Byte}

theorem OldInode.not_zeroed (hF : OldInode crc64 F) : (Metafile.preadv InoOd.layout.size 0 0 F).zeroed = false := by
  by_contra hz
  have hv := hF.version
  rw [Got.zeroed_iff.mp (Bool.not_eq_false _ ▸ hz), length_preadv_buf] at hv
  exact absurd hv (by decide)

theorem OldInode.not_headless (hF : OldInode crc64 F) : ¬ Headless F := by
  intro h
  have hv := hF.version
  rcases h.preadv 0 with hr | hr <;> rw [hr] at hv <;> exact absurd hv (by decide)

theorem CopyV1.not_headless (h : CopyV1 crc64 F f) : ¬ Headless f := by
  obtain ⟨v, x, bs, -, hs⟩ := h
  intro hh
  have hbuf : InoOd.layout.put v.convert = List.replicate InoOd.layout.size 0 := by
    have hr := congrArg Got.buf (preadv_block crc64 0 hs.ino)
    rcases hh.preadv 0 with h0 | h0 <;> rw [h0] at hr <;> exact hr.symm
  have hv : (InoOd.layout.get (InoOd.layout.put v.convert)).version = 0 := by rw [hbuf, version_get_replicate]
  rw [Layout.get_put] at hv
  have hversion : inoVersion = 0 := hv
  exact absurd hversion (by decide)

theorem Plain.content (h : Plain crc64 F) {v : InoV1} {x : InoxOd} {bs : List BmapOndisk}
    (hc : ContentV1 crc64 F v x bs) : bs = [] ∧ x = InoxOd.zero := by
  constructor
  · cases bs with
    | nil => rfl
    | cons b =>
      have hb := (hc.bmap 0 b rfl).1
      rw [mdsBmapReadV1_of_end crc64 h.bmap] at hb
      cases hb
  · obtain ⟨g, hg⟩ := hc.inox
    have hrepls := h.inox g x hg
    obtain ⟨r, rfl⟩ := mdsInoxReadV1_eq_ok crc64 hg
    have hr : r = Vector.replicate _ 0 := hrepls
    rw [hr]
    rfl

/-! ### Where a sequence of attempts can get to -/

def Inv (crc64 : List Byte → BitVec 64) (F : List Byte) (d : Disk) : Prop :=
  Kept crc64 F none d ∨ Moving crc64 F d ∨
    Plain crc64 F ∧ ∃ v x bs, ContentV1 crc64 F v x bs ∧ Moved crc64 F v x d

def Done (crc64 : List Byte → BitVec 64) (F : List Byte) (ih : Inoh) (d : Disk) : Prop :=
  Plain crc64 F ∧ ∃ v x bs, ContentV1 crc64 F v x bs ∧ Moved crc64 F v x d ∧ ih.ino = v.convert ∧
    ∀ y ∈ ih.extras, y = x

variable {ih : Inoh} {d : Disk}

theorem Done.inv (h : Done crc64 F ih d) : Inv crc64 F d := by
  obtain ⟨hp, v, x, bs, hc, hm, -⟩ := h
  exact .inr (.inr ⟨hp, v, x, bs, hc, hm⟩)

theorem kept_none (ho : d.orig = F) (ht : ∀ f ∈ d.tmp, Headless f ∨ CopyV1 crc64 F f) :
    Kept crc64 F none d := ⟨ho, .inr ht⟩

theorem Kept.tmp_cases (h : Kept crc64 F none d) (hf : d.tmp = some f) : Headless f ∨ CopyV1 crc64 F f := by
  rcases h.tmp with hn | h
  · rw [hf] at hn
    cases hn
  · exact h f hf

section Attempt

variable {env : Env}

theorem openCopy_spec (hz : crc64 (List.replicate InoOd.layout.size 0) ≠ 0)
    (hg : env.gTmp ≠ crc64 (List.replicate InoOd.layout.size 0))
    (hd : ∀ f, d.tmp = some f → Headless f ∨ CopyV1 crc64 F f) : Ends (openCopy crc64 env) d
      (fun ino d' => d' = d ∧ ∃ f v x bs, d.tmp = some f ∧ ContentV1 crc64 F v x bs ∧
        Stored crc64 v.convert x bs f ∧ ino = v.convert)
      (fun _ d' => d' = d ∧ ((∃ c ∈ [Call.lookup, .openTmp, .tmpRead], ∃ e, env.fault c = .err e) ∨
        ∀ f, d.tmp = some f → ¬ CopyV1 crc64 F f)) (fun d' => d' = d) := by
  refine Ends.bind (Q := fun _ d' => d' = d ∧ d.tmp.isSome = true) (ends_mdsio
    (fun _ => ends_look (fun _ h => ?_) fun e h => ?_)
    (fun e he => ⟨rfl, .inl ⟨_, by simp, e, he⟩⟩) fun _ => rfl) fun _ d' hd' => ?_
  · refine ⟨rfl, ?_⟩
    by_contra hn
    rw [if_neg hn] at h
    cases h
  · refine ⟨rfl, .inr fun f hf => ?_⟩
    rw [hf] at h
    cases h
  obtain ⟨rfl, hsome⟩ := hd'
  obtain ⟨f, hf⟩ := isSome_iff_exists.mp hsome
  refine Ends.bind (Q := fun _ d'' => d'' = d') (ends_mdsio (fun _ => ends_pure rfl)
    (fun e he => ⟨rfl, .inl ⟨_, by simp, e, he⟩⟩) fun _ => rfl) fun _ d'' hd'' => ?_
  subst hd''
  refine ends_mdsio (fun _ => ?_) (fun e he => ⟨rfl, .inl ⟨_, by simp, e, he⟩⟩) fun _ => rfl
  have hfile : d''.file .tmp = f := by rw [Disk.file, hf, getD_some]
  rcases hd f hf with hh | ⟨v, x, bs, hc, hs⟩
  · -- the block read is all zeros, and its checksum does not fit
    have hbad : ∀ r : Got, r = preadv InoOd.layout.size env.gTmp 0 f → crc64 r.buf ≠ r.odCrc := by
      rintro r rfl
      rcases hh.preadv env.gTmp with hr | hr <;> rw [hr]
      · exact hg.symm
      · exact hz
    refine ends_look (fun ino h => ?_) fun e _ => ⟨rfl, .inr fun f' hf' hc => ?_⟩
    · rw [hfile, if_pos (hbad _ rfl)] at h
      cases h
    · obtain rfl : f = f' := some.inj (hf.symm.trans hf')
      exact hc.not_headless hh
  · refine ends_look (fun ino h => ⟨rfl, f, v, x, bs, hf, hc, hs, ?_⟩) fun e h => ?_
    · rw [hfile, preadv_block crc64 _ hs.ino, if_neg (by simp), Layout.get_put] at h
      exact (Except.ok.inj h).symm
    · rw [hfile, preadv_block crc64 _ hs.ino, if_neg (by simp)] at h
      cases h

theorem moveCopy_spec (hpass : ∀ c e, env.fault (.dump .orig c) ≠ .err e) (ino : InoOd) (d : Disk) :
    Ends (moveCopy crc64 env ino) d
      (fun ih d' => env.fault (.dump .orig .inodeWrite) = .none ∧ ih = ⟨ino, some InoxOd.zero⟩ ∧
        d' = ⟨finish crc64 ino InoxOd.zero [], d.tmp⟩) (fun _ d' => (∃ e, env.fault .trunc = .err e) ∧ d' = d)
      (fun d' => d' = d ∨ Headless d'.orig ∧ d'.tmp = d.tmp) := by
  refine Ends.bind (Q := fun x d' => x = InoxOd.zero ∧ d' = d) (ends_pure ⟨rfl, rfl⟩) fun x d' h => ?_
  obtain ⟨rfl, rfl⟩ := h
  refine Ends.bind (Q := fun _ d'' => d'' = ⟨[], d'.tmp⟩) (ends_mdsio (fun _ => ends_update rfl)
    (fun e he => ⟨⟨e, he⟩, rfl⟩) fun _ => .inl rfl) fun _ d'' h => ?_
  subst h
  refine Ends.bind ((mdsInodeDump_orig ino InoxOd.zero d'.tmp).mono (fun _ _ h => h) (fun _ _ h => ?_)
    fun _ h => .inr h.2) fun _ d'' h => ?_
  · obtain ⟨⟨c, e, he⟩, -⟩ := h
    exact absurd he (hpass c e)
  · exact ends_pure ⟨h.1, rfl, h.2⟩

theorem interrupted_spec (hz : crc64 (List.replicate InoOd.layout.size 0) ≠ 0) (hF : OldInode crc64 F)
    (hcond : Cond crc64 F d env) (hd : Kept crc64 F none d ∨ Moving crc64 F d) :
    Ends (mdsInodeUpdateInterrupted crc64 env) d (fun r d' => match r with
        | (false, _) => d.orig = F ∧ Kept crc64 F none d'
        | (true, res) => Ends (Prog.ofExcept res) d' (Done crc64 F) (fun _ => Inv crc64 F) (Inv crc64 F))
      (fun _ => Inv crc64 F) (Inv crc64 F) := by
  have hinv : Inv crc64 F d := hd.elim .inl fun h => .inr (.inl h)
  have htmp : ∀ f, d.tmp = some f → Headless f ∨ CopyV1 crc64 F f := by
    intro f hf
    rcases hd with hk | hm
    · exact hk.tmp_cases hf
    obtain ⟨f', hf', hc⟩ := hm.tmp
    obtain rfl : f = f' := some.inj (hf.symm.trans hf')
    exact .inr hc
  -- with the old metadata file a failed attempt does no harm
  have hkept : d.orig = F → Kept crc64 F none d := by
    intro ho
    rcases hd with hk | hm
    · exact hk
    · exact absurd (ho ▸ hm.orig) hF.not_headless
  have hunlinked : d.orig = F → Kept crc64 F none { d with tmp := none } := fun ho => ⟨ho, .inl rfl⟩
  refine Ends.bind (Q := fun r d' => d' = d ∧ match r with
      | .ok ino => ∃ f v x bs, d.tmp = some f ∧ ContentV1 crc64 F v x bs ∧ Stored crc64 v.convert x bs f ∧
          ino = v.convert
      | .error _ => d.orig = F)
    (Ends.attempt ((openCopy_spec hz hcond.garbage htmp).mono (fun _ _ h => h) (fun _ _ h => ⟨h.1, ?_⟩)
      fun _ h => h ▸ hinv)) fun r d' hr => ?_
  · by_contra hne
    rcases h.2 with ⟨c, hc, e, he⟩ | hnone
    · have hmem : c ∈ [Call.lookup, .openTmp, .tmpRead, .trunc] := by
        simp only [List.mem_cons, List.not_mem_nil, or_false] at hc ⊢
        tauto
      exact hcond.emptied hne c hmem e he
    rcases hd with hk | hm
    · exact hne hk.orig
    · obtain ⟨f, hf, hc⟩ := hm.tmp
      exact hnone f hf hc
  obtain ⟨rfl, hr⟩ := hr
  cases r with
  | error =>
    refine Ends.bind (ends_unlink (hunlinked hr) (hkept hr) fun _ => hinv)
      fun _ d'' hk => ends_pure ⟨hr, hk⟩
  | ok =>
    obtain ⟨f, v, x, bs, hf, hc, hs, rfl⟩ := hr
    have hcopy : CopyV1 crc64 F f := ⟨v, x, bs, hc, hs⟩
    refine Ends.bind (Q := fun r d'' => match r with
        | .ok ih => Done crc64 F ih d''
        | .error _ => d'.orig = F ∧ d'' = d')
      (Ends.attempt ((moveCopy_spec hcond.pass v.convert d').mono (fun ih d'' h => ?_) (fun _ _ h => ?_)
        fun d'' h => ?_)) fun r d'' hr => ?_
    · obtain ⟨hw, rfl, rfl⟩ := h
      have hplain : Plain crc64 F := hcond.plain.resolve_right (by simp [hw])
      obtain ⟨rfl, rfl⟩ := hplain.content hc
      refine ⟨hplain, v, _, _, hc, ⟨rfl, fun f' hf' => ?_⟩, rfl, fun y hy => (some.inj hy).symm⟩
      obtain rfl : f = f' := some.inj (hf.symm.trans hf')
      exact hcopy
    · refine ⟨?_, h.2⟩
      by_contra hne
      obtain ⟨e, he⟩ := h.1
      exact hcond.emptied hne .trunc (by simp) e he
    · rcases h with rfl | ⟨hh, ht⟩
      · exact hinv
      · exact .inr (.inl ⟨hh, f, ht.trans hf, hcopy⟩)
    cases r with
    | ok ih =>
      obtain ⟨hp, w, y, cs, hw, hm, hino, hex⟩ := hr
      have hdone : ∀ t, (∀ f ∈ t, CopyV1 crc64 F f) → Done crc64 F ih ⟨d''.orig, t⟩ :=
        fun t ht => ⟨hp, w, y, cs, hw, ⟨hm.orig, ht⟩, hino, hex⟩
      refine Ends.bind (ends_unlink (hdone none (by simp)) (hdone _ hm.tmp)
        fun _ => (hdone _ hm.tmp).inv) fun _ _ h => ends_pure (ends_ret h)
    | error =>
      obtain ⟨ho, rfl⟩ := hr
      refine Ends.bind (ends_unlink (.inl (hunlinked ho)) hinv fun _ => hinv)
        fun _ _ h => ends_pure (ends_error h)

theorem update_spec (hcond : Cond crc64 F d env) {t : Option (List Byte)} (ht : Kept crc64 F none ⟨F, t⟩) :
    Ends (mdsInodeUpdate crc64 env) ⟨F, t⟩ (Done crc64 F) (fun _ => Inv crc64 F) (Inv crc64 F) := by
  have hkept : ∀ d', Kept crc64 F t d' → Kept crc64 F none d' := by
    intro d' h
    refine kept_none h.orig fun f hf => ?_
    rcases h.tmp with heq | h
    · exact ht.tmp_cases (heq.symm.trans hf)
    · exact h f hf
  have hplain : env.fault (.dump .orig .inodeWrite) = .none → Plain crc64 F :=
    fun hw => hcond.plain.resolve_right (by simp [hw])
  refine (mdsInodeUpdate_spec hcond.pass F t).mono (fun ih d' h => ?_) (fun _ d' h => .inl (hkept d' h.2))
    fun d' h => ?_
  · obtain ⟨hw, v, x, bs, hc, rfl, hm⟩ := h
    exact ⟨hplain hw, v, x, bs, hc, hm, rfl, fun y hy => (some.inj hy).symm⟩
  · rcases h.2 with hk | hm | ⟨hw, v, x, bs, hc, hm⟩
    · exact .inl (hkept d' hk)
    · exact .inr (.inl hm)
    · exact .inr (.inr ⟨hplain hw, v, x, bs, hc, hm⟩)

theorem mdsInodeRead_spec (hz : crc64 (List.replicate InoOd.layout.size 0) ≠ 0) (hF : OldInode crc64 F)
    (hcond : Cond crc64 F d env) (hd : Inv crc64 F d) :
    Ends (mdsInodeRead crc64 env) d (Done crc64 F) (fun _ => Inv crc64 F) (Inv crc64 F) := by
  refine Ends.bind (Q := fun r d' => d' = d ∧ r = preadv InoOd.layout.size 0 0 d.orig)
    (ends_mdsio (fun _ => ⟨rfl, rfl⟩) (fun _ _ => hd) fun _ => hd) fun r d' hr => ?_
  obtain ⟨rfl, rfl⟩ := hr
  rcases hd with hk | hm | ⟨hplain, v, x, bs, hc, hm⟩
  · -- the old file
    have hcrc := hF.crc
    have hversion := hF.version
    have hzero := hF.not_zeroed
    rw [← hk.orig] at hcrc hversion hzero
    rw [if_neg fun h => Bool.false_ne_true (hzero.symm.trans h.2.2), if_pos hcrc]
    refine Ends.bind (interrupted_spec hz hF hcond (.inl hk)) fun r d'' hr => ?_
    obtain ⟨_ | _, r⟩ := r
    · obtain ⟨-, hk'⟩ := hr
      simp only [hversion]
      obtain ⟨o, t⟩ := d''
      obtain rfl : o = F := hk'.orig
      exact update_spec hcond hk'
    · exact hr
  · -- an emptied one: there is a copy, so it is not taken for a new one
    have hne : d'.orig ≠ F := fun ho => hF.not_headless (ho ▸ hm.orig)
    rcases hm.orig.preadv 0 with h0 | h0
    · rw [h0]
      refine Ends.bind (interrupted_spec hz hF hcond (.inr hm)) fun r d'' hr => ?_
      obtain ⟨_ | _, r⟩ := r
      · exact absurd hr.1 hne
      · exact hr
    rw [h0, if_pos hz]
    refine Ends.bind (interrupted_spec hz hF hcond (.inr hm)) fun r d'' hr => ?_
    obtain ⟨_ | _, r⟩ := r
    · exact absurd hr.1 hne
    · exact hr
  · -- a converted one
    rw [preadv_block crc64 0 hm.stored.ino, if_neg (by simp), if_neg (by simp), Layout.get_put]
    exact ends_pure ⟨hplain, v, x, bs, hc, hm, rfl, by simp⟩

/-! ### Every sequence of attempts -/

theorem Done.returned (hfl : ∀ v, inoV1 crc64 F = .ok v → v.flags = 0)
    (h : Done crc64 F ih d) : Returned crc64 F ih d := by
  obtain ⟨hplain, v, x, bs, hc, hm, hino, hex⟩ := h
  obtain ⟨rfl, -⟩ := hplain.content hc
  have hs := hm.stored
  refine ⟨hc.same (hfl v hc.ino) hs, fun env t henv => ?_, fun y hy g => ?_⟩
  · rw [hino]
    exact hs.read henv t
  · rw [hex y hy]
    exact mdsInoxLoadLocked_of_block crc64 g hs.inox

theorem Inv.safe (hfl : ∀ v, inoV1 crc64 F = .ok v → v.flags = 0) (h : Inv crc64 F d) : Safe crc64 F d := by
  rcases h with hk | hm | ⟨hplain, v, x, bs, hc, hm⟩
  · exact .inl hk.orig
  · obtain ⟨f, hf, v, x, bs, hc, hs⟩ := hm.tmp
    exact .inr (.inr ⟨f, hf, hc.same (hfl v hc.ino) hs⟩)
  · obtain ⟨rfl, -⟩ := hplain.content hc
    exact .inr (.inl (hc.same (hfl v hc.ino) hm.stored))

/-- **The content of a file without flags is never lost.** -/
theorem migration_safe (hz : crc64 (List.replicate InoOd.layout.size 0) ≠ 0) (hF : OldInode crc64 F)
    (hfl : ∀ v, inoV1 crc64 F = .ok v → v.flags = 0) {envs : List Env} {d : Disk}
    (ha : Admits (step crc64) (Cond crc64 F) ⟨F, none⟩ envs) (hr : run (step crc64) ⟨F, none⟩ envs = some d) :
    Safe crc64 F d ∧ ∀ env ih d', Cond crc64 F d env → mdsInodeRead crc64 env d = .done ih d' →
      Returned crc64 F ih d' := by
  have hinv : Inv crc64 F d := by
    refine run_invariant (fun hs hcond h => ?_) (.inl ⟨rfl, .inl rfl⟩) ha hr
    cases h
    exact ((mdsInodeRead_spec hz hF hcond hs).mono (fun _ _ h => h.inv) (fun _ _ h => h) fun _ h => h).state
  exact ⟨hinv.safe hfl, fun env ih d' hcond hd => ((mdsInodeRead_spec hz hF hcond hinv).of_done hd).returned hfl⟩

end Attempt

def plainFile : List Byte := block crcOne InoV1.layout (oldIno 0)

theorem plainFile_old : OldInode crcOne plainFile := ⟨by decide +kernel, by decide +kernel⟩

theorem inoV1_plainFile : inoV1 crcOne plainFile = .ok (oldIno 0) := by decide +kernel

theorem plainFile_plain : Plain crcOne plainFile := by
  refine ⟨by decide +kernel, fun g x h => ?_⟩
  have hend : plainFile.length ≤ 0x400 := by decide +kernel
  simp only [mdsInoxReadV1, preadv_end g hend] at h
  split at h <;> cases h
  rfl

/-- Only the call `c` ends with `f`. -/
def only (c : Call) (f : Fault) : Env := { calm with fault := fun c' => if c' = c then f else .none }

theorem cond_only_crash (c : Call) : Cond crcOne plainFile ⟨plainFile, none⟩ (only c .crash) where
  garbage := show 0 ≠ 1 by decide
  pass c' e := by
    simp only [only]
    split <;> simp
  emptied h := absurd rfl h
  plain := .inl plainFile_plain

theorem cond_calm (d : Disk) : Cond crcOne plainFile d calm :=
  ⟨by decide, fun _ _ => by simp [calm], fun _ _ _ _ => by simp [calm], .inl plainFile_plain⟩

theorem migration_safe_cut : ∃ d ∈ run (step crcOne) ⟨plainFile, none⟩ [only (.dump .orig .inoxWrite) .crash, calm],
    (step crcOne ⟨plainFile, none⟩ (only (.dump .orig .inoxWrite) .crash)).map Disk.orig = some [] ∧
      d.tmp = none ∧ Safe crcOne plainFile d ∧ ∀ env ih d', Cond crcOne plainFile d env →
        mdsInodeRead crcOne env d = .done ih d' → Returned crcOne plainFile ih d' := by
  refine ⟨(mdsInodeRead crcOne calm (mdsInodeRead crcOne (only (.dump .orig .inoxWrite) .crash)
    ⟨plainFile, none⟩).state).state, rfl, by decide +kernel, by decide +kernel, ?_⟩
  have ha : Admits (step crcOne) (Cond crcOne plainFile) ⟨plainFile, none⟩
      [only (.dump .orig .inoxWrite) .crash, calm] :=
    ⟨cond_only_crash _, fun d _ => ⟨cond_calm d, fun _ _ => trivial⟩⟩
  refine migration_safe (by decide) plainFile_old (fun v hv => ?_) ha rfl
  cases hv.symm.trans inoV1_plainFile
  rfl

/-- **The only copy is removed**: the extension cannot be written, and the next attempt finds a new inode. -/
theorem copy_removed : run (step crcOne) ⟨plainFile, none⟩ [only (.dump .orig .inoxWrite) (.err 5)] = some ⟨[], none⟩ ∧
      mdsInodeRead crcOne calm ⟨[], none⟩ = .done ⟨mdsInodeOdInitnew, none⟩ ⟨[], none⟩ ∧
      ¬ Safe crcOne plainFile ⟨[], none⟩ := by
  have hread : mdsInodeRead crcOne calm ⟨[], none⟩ = .done ⟨mdsInodeOdInitnew, none⟩ ⟨[], none⟩ := by
    decide +kernel
  refine ⟨by decide +kernel, hread, ?_⟩
  rintro (h | h | ⟨f, hf, -⟩)
  · exact absurd (congrArg List.length h) (by decide +kernel)
  · obtain ⟨v, i, hv, hi, -, -, hn, -⟩ := h.ino
    cases hv.symm.trans inoV1_plainFile
    cases (hi calm none rfl).symm.trans hread
    exact absurd hn (by decide)
  · cases hf

end Slash2.Metafile

import Ocx.Oci.Digest
import Ocx.Util.Outcome

/-!
# Copying blobs

A copy takes each blob of a manifest to a scratch file and checks it on the way. The stream is cut
one byte past the declared size, so that a longer one shows in its hash. It does not when the
descriptor itself is wrong: the digest of a content with one byte more than the size passes
(`spool_takes_longer`).
-/

namespace Ocx

open List

/-- Why a blob was not copied. -/
inductive CopyError
  | shortBlobRead (expected actual : ℕ)
  | digestMismatch (expected actual : String)
  /-- The registry or the scratch file failed. -/
  | other (message : String)

/-- The largest blob that is copied. -/
def maxCopiedBlobBytes : ℕ := 8 <<< 30

/-- A blob to copy, of a descriptor whose size was checked. -/
structure BlobRef where
  digest : Digest
  /-- The declared size. -/
  size : ℕ
  bounded : size ≤ maxCopiedBlobBytes

/-- What a spool meets. -/
structure BlobSource where
  /-- Authentication, the scratch file and the request. -/
  opened : Except CopyError Unit
  bytes : List UInt8
  /-- The transfer fails after these bytes. -/
  breaks : Option CopyError
  /-- The scratch file takes what was read. -/
  flushed : Except CopyError Unit

/-- What is read from the stream cut at `limit`. A failure is seen only if the stream is asked for
more than it has. -/
def BlobSource.copy (source : BlobSource) (limit : ℕ) : Except CopyError (List UInt8) :=
  match source.breaks with
  | some e => if source.bytes.length < limit then .error e else .ok (source.bytes.take limit)
  | none => .ok (source.bytes.take limit)

variable (hash : Algorithm → List UInt8 → Digest) (scratch : String) (blob : BlobRef)
  (source : BlobSource)

/-- Stream a blob to its scratch file. Also how many bytes were taken from the source. -/
def spool : Except CopyError String × ℕ :=
  match source.opened with
  | .error e => (.error e, 0)
  | .ok () =>
    -- one past the declaration, saturating
    let limit := min (blob.size + 1) (2 ^ 64 - 1)
    let result := do
      let read ← source.copy limit
      let _ ← source.flushed
      let actual := hash blob.digest.algorithm read
      if read.length < blob.size then .error (.shortBlobRead blob.size read.length)
      else if actual ≠ blob.digest then
        .error (.digestMismatch blob.digest.toString actual.toString)
      else .ok (scratch ++ "/" ++ blob.digest.hex)
    (result, (source.bytes.take limit).length)

/-- What a copy relies on. -/
structure SpooledWhole : Prop where
  /-- Only a blob of the declared size and digest is accepted. -/
  whole : ∀ path, (spool hash scratch blob source).1 = .ok path →
    source.bytes.length = blob.size ∧ hash blob.digest.algorithm source.bytes = blob.digest
  bounded : (spool hash scratch blob source).2 ≤ blob.size + 1

/-- The source serves one byte more than declared, or more, and the declared digest is that of the
content up to there. -/
def Overruns : Prop :=
  source.opened = .ok () ∧ source.flushed = .ok () ∧ ∃ content, content <+: source.bytes ∧
    content.length = blob.size + 1 ∧ hash blob.digest.algorithm content = blob.digest

variable {hash scratch blob source}

theorem limit_eq : min (blob.size + 1) (2 ^ 64 - 1) = blob.size + 1 := by
  have := blob.bounded
  simp only [maxCopiedBlobBytes] at this
  omega

theorem BlobSource.copy_eq_ok_iff {limit : ℕ} {read : List UInt8} :
    source.copy limit = .ok read ↔
      read = source.bytes.take limit ∧ (source.breaks = none ∨ limit ≤ source.bytes.length) := by
  unfold copy
  cases source.breaks with
  | none => simp [eq_comm]
  | some e => split_ifs with h <;> simp [eq_comm, h, Nat.le_of_not_lt]

/-- What an accepted stream looks like. -/
theorem spool_eq_ok_iff {path : String} :
    (spool hash scratch blob source).1 = .ok path ↔
      source.opened = .ok () ∧ source.flushed = .ok () ∧ blob.size ≤ source.bytes.length ∧
      (source.breaks = none ∨ blob.size < source.bytes.length) ∧
      hash blob.digest.algorithm (source.bytes.take (blob.size + 1)) = blob.digest ∧
      path = scratch ++ "/" ++ blob.digest.hex := by
  unfold spool
  cases hopened : source.opened with
  | error e => simp
  | ok u =>
    simp only [limit_eq, bind_eq_ok_iff, BlobSource.copy_eq_ok_iff, true_and]
    constructor
    · rintro ⟨read, ⟨rfl, hbreaks⟩, ⟨⟩, hflushed, h⟩
      split_ifs at h with hshort hdigest
      rw [length_take] at hshort
      exact ⟨hflushed, by omega, hbreaks, not_not.1 hdigest, (Except.ok.inj h).symm⟩
    · rintro ⟨hflushed, hlength, hbreaks, hdigest, rfl⟩
      refine ⟨_, ⟨rfl, hbreaks⟩, (), hflushed, ?_⟩
      rw [if_neg (by rw [length_take]; omega), if_neg (not_not.2 hdigest)]

/-- **A copied blob is what its descriptor declares**, except for a content that is longer by one
byte than the declared size and has the declared digest. -/
theorem spooledWhole_iff (hash : Algorithm → List UInt8 → Digest) (scratch : String)
    (blob : BlobRef)
    (source : BlobSource) :
    SpooledWhole hash scratch blob source ↔ ¬Overruns hash blob source := by
  constructor
  · rintro h ⟨hopened, hflushed, content, ⟨rest, hbytes⟩, hlength, hdigest⟩
    have hlong : source.bytes.length = blob.size + 1 + rest.length := by
      rw [← hbytes, length_append, hlength]
    have hread : source.bytes.take (blob.size + 1) = content := by
      rw [← hbytes, ← hlength, take_left]
    have hwhole := h.whole _ (spool_eq_ok_iff.2
      ⟨hopened, hflushed, by omega, .inr (by omega), by rw [hread, hdigest], rfl⟩)
    omega
  · refine fun hover => ⟨fun path hpath => ?_, ?_⟩
    · obtain ⟨hopened, hflushed, hlength, -, hdigest, -⟩ := spool_eq_ok_iff.1 hpath
      -- a longer stream would be cut to a content that overruns
      have hexact : source.bytes.length = blob.size := by
        by_contra hne
        refine hover ⟨hopened, hflushed, _, take_prefix _ _, ?_, hdigest⟩
        rw [length_take]
        omega
      rw [take_of_length_le (by omega)] at hdigest
      exact ⟨hexact, hdigest⟩
    · unfold spool
      split
      · exact Nat.zero_le _
      · simp only [limit_eq, length_take]
        exact min_le_left _ _

/-- Two bytes are accepted for one, whose digest is theirs, with a hash without collisions. -/
theorem spool_takes_longer :
    ∃ (hash : Algorithm → List UInt8 → Digest) (blob : BlobRef) (source : BlobSource),
      (∀ algorithm, (hash algorithm).Injective) ∧ source.bytes.length = blob.size + 1 ∧
      (spool hash "scratch" blob source).1 = .ok "scratch/ab" := by
  refine ⟨fun algorithm bytes => ⟨algorithm, String.ofList (bytes.map Char.ofUInt8)⟩,
    ⟨⟨.sha256, "ab"⟩, 1, by decide⟩, ⟨.ok (), [97, 98], none, .ok ()⟩, ?_, rfl, by rfl⟩
  intro algorithm a b h
  have hmap := String.ofList_injective (congrArg Digest.hex h)
  exact map_injective_iff.2 (fun x y hxy => UInt8.toUInt32_inj.1 (congrArg Char.val hxy)) hmap

end Ocx

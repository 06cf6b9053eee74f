import PrivatePayments.Circuits.PolicyTransaction

/-! `circuits/src/selectiveDisclosure.circom`: notes that someone owns, each under a root of its
own, for one external context. -/
namespace PrivatePayments.Circuits

/-- The input signals of the template, public ones first. -/
structure DisclosureSignals (levels nNotes : Nat) where
  roots : Fin nNotes → F
  noteCommitments : Fin nNotes → F
  extContextHash : F
  inAmount : Fin nNotes → F
  inPrivateKey : Fin nNotes → F
  inBlinding : Fin nNotes → F
  inPathIndices : Fin nNotes → F
  inPathElements : Fin nNotes → Vector F levels

namespace DisclosureSignals
variable {levels nNotes : Nat} (P : Permutation) (w : DisclosureSignals levels nNotes)

def publicInputs : List F := List.ofFn w.roots ++ List.ofFn w.noteCommitments ++ [w.extContextHash]

section Note
variable (ni : Fin nNotes)

def publicKey : F := keypair P (w.inPrivateKey ni)

def inCommitment : F := hash3 P (w.inAmount ni) (w.publicKey P ni) (w.inBlinding ni) 1

def inTreeRoot : F := merkleProof P (w.inCommitment P ni) (w.inPathElements ni) (w.inPathIndices ni)

def noteQueries : List Query :=
  [.hash2 (w.inPrivateKey ni) 0 3, .hash3 (w.inAmount ni) (w.publicKey P ni) (w.inBlinding ni) 1] ++
    merkleProofQueries P (w.inPathIndices ni) 0 (w.inCommitment P ni) (w.inPathElements ni).toList

end Note

def queries : List Query := (List.finRange nNotes).flatMap (w.noteQueries P)

end DisclosureSignals

/-- The constraints of the template.  The square of the context hash is a signal of its own and
constrains nothing. -/
structure SelectiveDisclosure {levels nNotes : Nat} (P : Permutation) (w : DisclosureSignals levels nNotes) :
    Prop where
  commitment : ∀ ni, w.noteCommitments ni = w.inCommitment P ni
  pathBits : ∀ ni, Num2Bits levels (w.inPathIndices ni)
  root : ∀ ni, w.roots ni = w.inTreeRoot P ni

section
variable {levels nNotes : Nat} {P : Permutation} {Q : Set Query} {w : DisclosureSignals levels nNotes}

theorem DisclosureSignals.mem_queries {ni : Fin nNotes} {q : Query} (h : q ∈ w.noteQueries P ni) :
    q ∈ w.queries P := List.mem_flatMap.mpr ⟨ni, List.mem_finRange ni, h⟩

theorem DisclosureSignals.commitment_mem_queries (ni : Fin nNotes) :
    .hash3 (w.inAmount ni) (w.publicKey P ni) (w.inBlinding ni) 1 ∈ w.queries P := by
  have hnote : .hash3 (w.inAmount ni) (w.publicKey P ni) (w.inBlinding ni) 1 ∈ w.noteQueries P ni := by
    simp [noteQueries]
  exact mem_queries hnote

theorem SelectiveDisclosure.leaf (h : SelectiveDisclosure P w) (hcf : CollisionFree P Q)
    (hQ : ∀ q ∈ w.queries P, q ∈ Q) {leaves : Nat → F}
    (htree : ∀ input ∈ Lib.BinaryTree.treeInputs (compress P) leaves levels, .compress input.1 input.2 ∈ Q)
    {ni : Fin nNotes} (hroot : w.roots ni = Lib.BinaryTree.nodeAt (compress P) leaves levels 0) :
    w.noteCommitments ni = leaves (w.inPathIndices ni).val := by
  rw [h.commitment ni]
  apply merkleProof_sound hcf htree _ (h.pathBits ni) ((h.root ni).symm.trans hroot)
  intro q hq
  exact hQ q (DisclosureSignals.mem_queries (List.mem_append_right _ hq))

end

end PrivatePayments.Circuits

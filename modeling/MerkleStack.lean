import MerkleStack.Evaluation
import MerkleStack.HashTerm
import MerkleStack.Hasher.Bench
import MerkleStack.Program.Listing
import MerkleStack.Proofs.Absorption
import MerkleStack.Trace
import MerkleStack.Wire.Program
import MerkleStack.Proofs.Evaluation
import MerkleStack.Proofs.Refinement
import MerkleStack.Proofs.DigestLength
import MerkleStack.Proofs.Binding
import MerkleStack.Proofs.HasherContract
import MerkleStack.Proofs.Faults
import MerkleStack.Proofs.Stepping
import MerkleStack.Proofs.Failures
import MerkleStack.Proofs.Blake3Agreement
import MerkleStack.Proofs.Diagnostics
import MerkleStack.Proofs.TermCompilation
import MerkleStack.Proofs.WireDecoding
import MerkleStack.Proofs.WireRoundTrip
import MerkleStack.Proofs.Meaning
import MerkleStack.Proofs.Substitution
import MerkleStack.Proofs.WireDelimiting
import MerkleStack.Proofs.WireShortest
import MerkleStack.Proofs.Listing
import MerkleStack.Proofs.WireStream
import MerkleStack.Proofs.WireRefusals
import MerkleStack.Proofs.WireLongest
import MerkleStack.Proofs.Noninterference
import MerkleStack.Proofs.Peeking
import MerkleStack.Proofs.Assertion
import MerkleStack.Proofs.Provenance
import MerkleStack.Proofs.OutputStream
import MerkleStack.Proofs.Messages

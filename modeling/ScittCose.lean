import ScittCose.Lib.Octets
import ScittCose.Lib.Utf8
import ScittCose.Lib.Cbor
import ScittCose.Lib.CborCanonical
import ScittCose.Lib.Checked
import ScittCose.Lib.Hash
import ScittCose.Lib.Sha256
import ScittCose.Lib.Mmr
import ScittCose.Lib.Json
import ScittCose.EncodingRule.Grammar
import ScittCose.EncodingRule.Walk
import ScittCose.EncodingRule.Machine
import ScittCose.EncodingRule.Rust
import ScittCose.EncodingRule.Go
import ScittCose.EncodingRule.Agreement
import ScittCose.Merkle.Basic
import ScittCose.Merkle.Inclusion
import ScittCose.Merkle.Consistency
import ScittCose.Merkle.Exact
import ScittCose.Merkle.Recursion
import ScittCose.Merkle.Machine
import ScittCose.Libraries
import ScittCose.CoseSign1
import ScittCose.Receipt.Envelope
import ScittCose.Receipt.Verify
import ScittCose.Receipt.Verdict
import ScittCose.Receipt.Soundness
import ScittCose.Receipt.Mint
import ScittCose.Receipt.Contract
import ScittCose.Receipt.Ccf
import ScittCose.Receipt.Position
import ScittCose.Cll.Position
import ScittCose.Cll.Hashing
import ScittCose.Cll.Verify
import ScittCose.Cll.Checkpoint
import ScittCose.Cll.Rollback
import ScittCose.Cll.Range
import ScittCose.Cll.CheckpointRange
import ScittCose.Cll.Exact
import ScittCose.Cll.SigningBody
import ScittCose.Roots
import ScittCose.Lib.CborFloat
import ScittCose.Host
import ScittCose.StrictDecode
import ScittCose.Statement.Build
import ScittCose.Statement.Attach
import ScittCose.Lib.JsNumber
import ScittCose.Cll.Browser
import ScittCose.Cll.Parity
import ScittCose.Witness.Receipt
import ScittCose.Witness.Agreement
import ScittCose.Merkle.Folds
import ScittCose.Receipt.Rust
import ScittCose.Receipt.Go
import ScittCose.Receipt.Order
import ScittCose.Receipt.Agreement
import ScittCose.Lib.MmrSequence
import ScittCose.Cll.Sequence
import ScittCose.Lib.JsonTree
import ScittCose.Witness.EntryHash
import ScittCose.Lib.Chain
import ScittCose.Aac.Parse
import ScittCose.Aac.Records
import ScittCose.Aac.Ritual
import ScittCose.Aac.Citations
import ScittCose.Aac.Disclosure
import ScittCose.Pages.Parse
import ScittCose.Pages.CborDecode
import ScittCose.Pages.Statement
import ScittCose.Pages.Ritual
import ScittCose.Pages.Verdicts
import ScittCose.Pages.Citations
import ScittCose.Pages.Agreement
import ScittCose.Pages.Completeness
import ScittCose.Lib.Base64
import ScittCose.Lib.Attempt
import ScittCose.Witness.Checkpoint
import ScittCose.Witness.Directory
import ScittCose.Witness.Evidence
import ScittCose.Witness.History
import ScittCose.Cll.Leaf

import XmlWriter.Text.Basic
import XmlWriter.Text.Utf8
import XmlWriter.Number.Binary64
import XmlWriter.Number.Decimal
import XmlWriter.Number.Counter
import XmlWriter.Character
import XmlWriter.Name.Basic
import XmlWriter.Name.Fault
import XmlWriter.Name.LocalPart
import XmlWriter.Flaw
import XmlWriter.Html
import XmlWriter.Content.Legal
import XmlWriter.Content.Reference
import XmlWriter.Content.CharData
import XmlWriter.Content.AttValue
import XmlWriter.Content.CDSect
import XmlWriter.Content.Comment
import XmlWriter.Content.Instruction
import XmlWriter.Content.XmlDecl
import XmlWriter.PrefixMap.Basic
import XmlWriter.PrefixMap.Family
import XmlWriter.Scope
import XmlWriter.Piece
import XmlWriter.Emit
import XmlWriter.Tag.Declarations
import XmlWriter.Tag.Resolution
import XmlWriter.Tag.Attributes
import XmlWriter.Tag.Start
import XmlWriter.Writer.Event
import XmlWriter.Writer.Basic
import XmlWriter.Writer.Run
import XmlWriter.Outlet.Basic
import XmlWriter.Outlet.Buffers
import XmlWriter.Document
import XmlWriter.Proofs.Ends
import XmlWriter.Proofs.SideBySide
import XmlWriter.Proofs.Tag.Declarations
import XmlWriter.Proofs.Tag.Resolution
import XmlWriter.Proofs.Tag.Attributes
import XmlWriter.Proofs.Reading.StartTag
import XmlWriter.Proofs.Tag.Start
import XmlWriter.Proofs.Writer.Session
import XmlWriter.Proofs.Writer.Recorded
import XmlWriter.Proofs.Writer.Inherited
import XmlWriter.Proofs.Writer.Forest
import XmlWriter.Proofs.Writer.Resolved
import XmlWriter.Proofs.Reading.QName
import XmlWriter.Proofs.Reading.Reader
import XmlWriter.Proofs.Reading.Lexing
import XmlWriter.Proofs.Number.Generated
import XmlWriter.Proofs.Reading.Settled
import XmlWriter.Proofs.Tag.Consistent
import XmlWriter.Proofs.Writer.RoundTrip
import XmlWriter.Proofs.Writer.Context
import XmlWriter.Proofs.Writer.Enforcement
import XmlWriter.Proofs.Tag.Distinct
import XmlWriter.Proofs.Tag.Legal
import XmlWriter.Proofs.Tag.Names
import XmlWriter.Proofs.Writer.Tags
import XmlWriter.Proofs.Writer.Declared
import XmlWriter.Proofs.Writer.Matching
import XmlWriter.Proofs.Number.Rounding
import XmlWriter.Proofs.Tag.Stopped
import XmlWriter.Proofs.Writer.Failing
import XmlWriter.Proofs.Text.Border
import XmlWriter.Proofs.Writer.Bytes
import XmlWriter.Proofs.Reading.References
import XmlWriter.Proofs.Writer.Places
import XmlWriter.Proofs.Text.Mark
import XmlWriter.Proofs.Reading.Sections
import XmlWriter.Proofs.Reading.Production
import XmlWriter.Proofs.Writer.Content
import XmlWriter.Proofs.Reading.Declaration
import XmlWriter.Proofs.Text.Decoding
import XmlWriter.Proofs.Writer.Unsaid
import XmlWriter.Proofs.Tag.Accepted
import XmlWriter.Proofs.Writer.Order
import XmlWriter.Proofs.Writer.Reserved
import XmlWriter.Proofs.Reading.NCName
import XmlWriter.Proofs.PrefixMap.History
import XmlWriter.Proofs.Writer.MadeUp
import XmlWriter.Proofs.Writer.LineEnds

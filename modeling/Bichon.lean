import Bichon.Blob.Platforms
import Bichon.Blob.TornTail
import Bichon.Blob.Damage
import Bichon.Blob.GcWindow
import Bichon.Blob.GcCrash
import Bichon.Blob.Rows
import Bichon.Blob.PutBatch
import Bichon.Blob.BackupWindow
import Bichon.Base32
import Bichon.Backup.Latest
import Bichon.Backup.Manager
import Bichon.MemDb.TornLog
import Bichon.MemDb.Truncation
import Bichon.MemDb.Atomic
import Bichon.Database.Paginate
import Bichon.Account.ViewFilter
import Bichon.Archive.Admission
import Bichon.Archive.LegalHold
import Bichon.Archive.Verdicts
import Bichon.Archive.ReadBack
import Bichon.Archive.TagRaces
import Bichon.Smtp.Data
import Bichon.Smtp.Authorization
import Bichon.Mbox.Export
import Bichon.Imap.Coverage
import Bichon.Imap.Folders
import Bichon.Backup.Unpackage
import Bichon.Backup.Space
import Bichon.Backup.S3Uri
import Bichon.Backup.Verify
import Bichon.Archive.Retention
import Bichon.Imap.Floor
import Bichon.Users.Login
import Bichon.Users.Grants
import Bichon.Account.Since
import Bichon.Account.ViewUpdates
import Bichon.Archive.Shutdown
import Bichon.Import.Emls
